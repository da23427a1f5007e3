import WorkCode.InternetChecksum
import WorkCode.InternetAddress

/-!
# IPv4 and UDP headers built in place

`ip_gen`, `udp_gen` and the two versions of `create_udp_packet`. Every function
writes through `packet`, an address into a memory of arbitrary prior content; the
structures `iphdr` and `udphdr` are their field offsets.
-/

namespace WorkCode.UdpPacketBuilders

open InternetChecksum InternetAddress

def sizeofIphdr : ℕ := 20
def sizeofUdphdr : ℕ := 8
def ETH_ALEN : ℕ := 6
def MESG_LENGTH : ℕ := 5
def IPVERSION : Byte := 4
def DEFAULT_TTL : ℕ := 60
def IPPROTO_UDP : Byte := 17

def htons (o : ByteOrder) (v : BitVec 16) : BitVec 16 :=
  BitVec.ofNat 16 (o.value (ByteOrder.big.bytes 2 v.toNat))

/-- `ip_gen` up to the call of `in_cksum`. The two bit fields of the first byte are
written one after the other. -/
def ipFields (o : ByteOrder) (m : Mem) (packet : ℕ) (protocol : Byte) (saddr daddr : BitVec 32)
    (length : BitVec 16) : Mem :=
  let m := m.fill packet sizeofIphdr (fun _ => 0)
  let m := m.storeInt o packet 1 (m packet &&& 0xf0 ||| 5).toNat
  let m := m.storeInt o packet 1 (m packet &&& 0x0f ||| IPVERSION <<< 4).toNat
  let m := m.storeInt o (packet + 2) 2 (htons o length).toNat
  let m := m.storeInt o (packet + 4) 2 10
  let m := m.storeInt o (packet + 8) 1 DEFAULT_TTL
  let m := m.storeInt o (packet + 9) 1 protocol.toNat
  let m := m.storeInt o (packet + 12) 4 saddr.toNat
  m.storeInt o (packet + 16) 4 daddr.toNat

def ipGen (o : ByteOrder) (m : Mem) (packet : ℕ) (protocol : Byte) (saddr daddr : BitVec 32)
    (length : BitVec 16) : Mem :=
  let m := ipFields o m packet protocol saddr daddr length
  m.storeInt o (packet + 10) 2 (Inject.inCksum o m packet sizeofIphdr).toNat

def udpGen (o : ByteOrder) (m : Mem) (packet : ℕ) (sport dport length : BitVec 16) : Mem :=
  let m := m.storeInt o packet 2 (htons o sport).toNat
  let m := m.storeInt o (packet + 2) 2 (htons o dport).toNat
  let m := m.storeInt o (packet + 4) 2 (htons o length).toNat
  m.storeInt o (packet + 6) 2 0

/-- The bytes `strncpy` writes: those of the source up to its first NUL, and NULs from
there to the end of the count. -/
def strncpy : ℕ → List Byte → List Byte
  | 0, _ => []
  | n + 1, [] => List.replicate (n + 1) 0
  | n + 1, b :: src => if b = 0 then List.replicate (n + 1) 0 else b :: strncpy n src

/-- `create_udp_packet` of `arp_inject.c`: the packet written and the offset returned. -/
def ArpInject.createUdpPacket (o : ByteOrder) (MESG : Vector Byte MESG_LENGTH) (m : Mem)
    (packet : ℕ) (s_ip : List Char) (sport : BitVec 16) (d_ip : List Char) (dport : BitVec 16) :
    Mem × ℕ :=
  let size := sizeofIphdr + sizeofUdphdr + MESG_LENGTH
  let saddr := inetAddr o s_ip
  let daddr := inetAddr o d_ip
  let m := ipGen o m packet IPPROTO_UDP saddr daddr (BitVec.ofNat 16 size)
  let offset := sizeofIphdr
  let m := udpGen o m (packet + offset) sport dport (BitVec.ofNat 16 (sizeofUdphdr + MESG_LENGTH))
  let offset := offset + sizeofUdphdr
  let m := m.store (packet + offset) (strncpy MESG_LENGTH MESG.toList)
  let offset := offset + MESG_LENGTH
  (m, offset)

/-- `create_udp_packet` of `udp_inject.c`, which appends the two station addresses. -/
def UdpInject.createUdpPacket (o : ByteOrder) (MESG : Vector Byte MESG_LENGTH) (m : Mem)
    (packet : ℕ) (s_ip : List Char) (sport : BitVec 16) (d_ip : List Char) (dport : BitVec 16)
    (bssid station_mac : Vector Byte ETH_ALEN) : Mem × ℕ :=
  let size := sizeofIphdr + sizeofUdphdr + MESG_LENGTH + 2 * ETH_ALEN
  let saddr := inetAddr o s_ip
  let daddr := inetAddr o d_ip
  let m := ipGen o m packet IPPROTO_UDP saddr daddr (BitVec.ofNat 16 size)
  let offset := sizeofIphdr
  let m := udpGen o m (packet + offset) sport dport
    (BitVec.ofNat 16 (sizeofUdphdr + MESG_LENGTH + 2 * ETH_ALEN))
  let offset := offset + sizeofUdphdr
  let m := m.store (packet + offset) (strncpy MESG_LENGTH MESG.toList)
  let offset := offset + MESG_LENGTH
  let m := m.store (packet + offset) bssid.toList
  let m := m.store (packet + offset + ETH_ALEN) station_mac.toList
  let offset := offset + 2 * ETH_ALEN
  (m, offset)

theorem bytes_htons (o : ByteOrder) (v : BitVec 16) :
    o.bytes 2 (htons o v).toNat = ByteOrder.big.bytes 2 v.toNat := by
  have hlen := ByteOrder.length_bytes .big 2 v.toNat
  have hlt : o.value (ByteOrder.big.bytes 2 v.toNat) < 2 ^ 16 := by
    simpa [hlen] using o.value_lt (ByteOrder.big.bytes 2 v.toNat)
  rw [htons, BitVec.toNat_ofNat, Nat.mod_eq_of_lt hlt]
  simpa only [hlen] using o.bytes_value (ByteOrder.big.bytes 2 v.toNat)

theorem value_bytes_htons (o : ByteOrder) (v : BitVec 16) :
    ByteOrder.big.value (o.bytes 2 (htons o v).toNat) = v.toNat := by
  rw [bytes_htons, ByteOrder.value_bytes, Nat.mod_eq_of_lt (by simpa using v.isLt)]

section Headers

variable (o : ByteOrder) (m : Mem) (packet : ℕ)

section Ip

variable (protocol : Byte) (saddr daddr : BitVec 32) (length : BitVec 16)

theorem ipGen_outside {i : ℕ} (h : i < packet ∨ packet + 20 ≤ i) :
    ipGen o m packet protocol saddr daddr length i = m i := by
  simp only [ipGen, ipFields, sizeofIphdr]
  simp (disch := omega) only [Mem.storeInt_outside, Mem.fill_outside]

theorem load_ipGen_totalLength :
    (ipGen o m packet protocol saddr daddr length).load (packet + 2) 2 =
      o.bytes 2 (htons o length).toNat := by
  simp only [ipGen, ipFields]
  simp (disch := omega) only [Mem.load_storeInt_disjoint, Mem.load_storeInt]

theorem load_ipGen_source :
    (ipGen o m packet protocol saddr daddr length).load (packet + 12) 4 =
      o.bytes 4 saddr.toNat := by
  simp only [ipGen, ipFields]
  simp (disch := omega) only [Mem.load_storeInt_disjoint, Mem.load_storeInt]

theorem load_ipGen_destination :
    (ipGen o m packet protocol saddr daddr length).load (packet + 16) 4 =
      o.bytes 4 daddr.toNat := by
  simp only [ipGen, ipFields]
  simp (disch := omega) only [Mem.load_storeInt_disjoint, Mem.load_storeInt]

/-- The field that the checksum goes into is still zero when it is computed. -/
theorem loadInt_ipFields_check :
    (ipFields o m packet protocol saddr daddr length).loadInt o (packet + 10) 2 = 0 := by
  have hzero : (m.fill packet sizeofIphdr (fun _ => 0)).load (packet + 10) 2 = [0, 0] := by
    simp [Mem.load, Mem.fill, sizeofIphdr]
    omega
  simp only [Mem.loadInt, ipFields]
  simp (disch := omega) only [Mem.load_storeInt_disjoint, hzero]
  cases o <;> rfl

/-- Nothing of the old buffer is left in the header. -/
theorem agreeOn_ipGen (m' : Mem) :
    Mem.AgreeOn (ipGen o m packet protocol saddr daddr length)
      (ipGen o m' packet protocol saddr daddr length) packet 20 := by
  have hfill : Mem.AgreeOn (m.fill packet sizeofIphdr (fun _ => 0))
      (m'.fill packet sizeofIphdr (fun _ => 0)) packet 20 := by
    intro i hi hn
    rw [sizeofIphdr, Mem.fill_inside _ _ ⟨hi, hn⟩, Mem.fill_inside _ _ ⟨hi, hn⟩]
  have hbits : ∀ {n n' : Mem} (f : Byte → Byte), Mem.AgreeOn n n' packet 20 →
      Mem.AgreeOn (n.storeInt o packet 1 (f (n packet)).toNat)
        (n'.storeInt o packet 1 (f (n' packet)).toNat) packet 20 := by
    intro n n' f h
    rw [h packet (by omega) (by omega)]
    exact h.storeInt (fun i hi hn => Or.inl ⟨hi, hn⟩)
  have hfields : Mem.AgreeOn (ipFields o m packet protocol saddr daddr length)
      (ipFields o m' packet protocol saddr daddr length) packet 20 := by
    have h := hbits (fun b => b &&& 0x0f ||| IPVERSION <<< 4) (hbits (fun b => b &&& 0xf0 ||| 5) hfill)
    have inside : ∀ {b k : ℕ} (i : ℕ), packet ≤ i → i < packet + 20 →
        (packet ≤ i ∧ i < packet + 20) ∨ (b ≤ i ∧ i < b + k) := fun i hi hn => Or.inl ⟨hi, hn⟩
    exact (((((h.storeInt inside).storeInt inside).storeInt inside).storeInt inside).storeInt
      inside).storeInt inside
  have hsum : Inject.inCksum o (ipFields o m packet protocol saddr daddr length) packet sizeofIphdr =
      Inject.inCksum o (ipFields o m' packet protocol saddr daddr length) packet sizeofIphdr :=
    inCksumOfWidth_congr o hfields.load_eq
  simp only [ipGen, hsum]
  exact hfields.storeInt (fun i hi hn => Or.inl ⟨hi, hn⟩)

end Ip

section Udp

variable (sport dport length : BitVec 16)

theorem udpGen_outside {i : ℕ} (h : i < packet ∨ packet + 8 ≤ i) :
    udpGen o m packet sport dport length i = m i := by
  simp only [udpGen]
  simp (disch := omega) only [Mem.storeInt_outside]

theorem load_udpGen_before {b n : ℕ} (h : b + n ≤ packet) :
    (udpGen o m packet sport dport length).load b n = m.load b n :=
  Mem.load_congr (fun i _ hn => udpGen_outside o m packet sport dport length (by omega))

theorem load_udpGen_source :
    (udpGen o m packet sport dport length).load packet 2 = o.bytes 2 (htons o sport).toNat := by
  simp only [udpGen]
  simp (disch := omega) only [Mem.load_storeInt_disjoint, Mem.load_storeInt]

theorem load_udpGen_dest :
    (udpGen o m packet sport dport length).load (packet + 2) 2 =
      o.bytes 2 (htons o dport).toNat := by
  simp only [udpGen]
  simp (disch := omega) only [Mem.load_storeInt_disjoint, Mem.load_storeInt]

theorem load_udpGen_len :
    (udpGen o m packet sport dport length).load (packet + 4) 2 =
      o.bytes 2 (htons o length).toNat := by
  simp only [udpGen]
  simp (disch := omega) only [Mem.load_storeInt_disjoint, Mem.load_storeInt]

theorem agreeOn_udpGen {m m' : Mem} {a n : ℕ} (h : Mem.AgreeOn m m' a n) :
    Mem.AgreeOn (udpGen o m (a + n) sport dport length) (udpGen o m' (a + n) sport dport length)
      a (n + 8) := by
  have h₁ := h.storeInt (o := o) (b := a + n) (k := 2) (c := a) (l := n + 2)
    (v := (htons o sport).toNat) (by omega)
  have h₂ := h₁.storeInt (o := o) (b := a + n + 2) (k := 2) (c := a) (l := n + 4)
    (v := (htons o dport).toNat) (by omega)
  have h₃ := h₂.storeInt (o := o) (b := a + n + 4) (k := 2) (c := a) (l := n + 6)
    (v := (htons o length).toNat) (by omega)
  exact h₃.storeInt (by omega)

end Udp

end Headers

end WorkCode.UdpPacketBuilders
