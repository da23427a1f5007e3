import WorkCode.UdpPacketBuilders

/-!
# ICMP echo requests

The request of `ping.c`, kept in a static packed structure from call to call, and the
one `CORE_Ping` of `ping_test.c` assembles on its stack. Field offsets are those of
`#pragma pack(1)` and of `struct icmp`; `long` and the two halves of `struct timeval`
have the size of the machine word.
-/

namespace WorkCode.EchoRequestBuilders

open InternetChecksum UdpPacketBuilders

def ICMP_ECHOREQ : ℕ := 8
def ICMP_ECHO : ℕ := 8
def REQ_DATASIZE : ℕ := 32

structure Timeval where
  sec : BitVec 64
  usec : BitVec 64

def gettimeofday (abi : Abi) (m : Mem) (a : ℕ) (now : Timeval) : Mem :=
  let m := m.storeInt abi.order a abi.longBytes now.sec.toNat
  m.storeInt abi.order (a + abi.longBytes) abi.longBytes now.usec.toNat

/-- `sizeof(ECHOREQUEST)`: nine bytes of `ICMPHDR`, `dwTime`, and the data. -/
def sizeofEchoRequest (abi : Abi) : ℕ := 9 + abi.longBytes + REQ_DATASIZE

/-- The static variables of `SendEchoRequest`; `echoReq` stands at address `0`. -/
structure EchoStatics where
  echoReq : Mem
  nId : BitVec 32
  nSeq : BitVec 32

def EchoStatics.initial : EchoStatics := ⟨fun _ => 0, 1, 1⟩

/-- `SendEchoRequest` up to the call of `in_cksum`. -/
def echoFields (abi : Abi) (s : EchoStatics) (now : Timeval) : Mem :=
  let m := s.echoReq.storeInt abi.order 0 1 ICMP_ECHOREQ
  let m := m.storeInt abi.order 1 1 0
  let m := m.storeInt abi.order 2 2 0
  let m := m.storeInt abi.order 4 2 s.nId.toNat
  let m := m.storeInt abi.order 6 2 s.nSeq.toNat
  let m := m.fill (9 + abi.longBytes) REQ_DATASIZE (fun nRet => BitVec.ofNat 8 (' '.toNat + nRet))
  gettimeofday abi m 9 now

/-- One call of `SendEchoRequest`: the bytes handed to `sendto`, and the statics after it. -/
def sendEchoRequest (abi : Abi) (s : EchoStatics) (now : Timeval) : List Byte × EchoStatics :=
  let m := echoFields abi s now
  let m := m.storeInt abi.order 2 2 (Ping.inCksum abi.order m 0 (sizeofEchoRequest abi)).toNat
  (m.load 0 (sizeofEchoRequest abi), ⟨m, s.nId + 1, s.nSeq + 1⟩)

def sentRequests (abi : Abi) : EchoStatics → List Timeval → List (List Byte)
  | _, [] => []
  | s, now :: times =>
    (sendEchoRequest abi s now).1 :: sentRequests abi (sendEchoRequest abi s now).2 times

def sizeofIcmpPacket : ℕ := 60 + 76 + 56

/-- The packet of `CORE_Ping` up to the call of `in_cksum`. -/
def corePingFields (abi : Abi) (m : Mem) (s_Index pid : BitVec 32) (now : Timeval) : Mem :=
  let m := m.fill 0 sizeofIcmpPacket (fun _ => 0)
  let m := m.storeInt abi.order 0 1 ICMP_ECHO
  let m := m.storeInt abi.order 6 2 s_Index.toNat
  let m := m.storeInt abi.order 4 2 (pid &&& 0xffff).toNat
  gettimeofday abi m 8 now

/-- The bytes `CORE_Ping` hands to `sendto`; `m` is what its stack held before. -/
def corePingRequest (abi : Abi) (m : Mem) (s_Index pid : BitVec 32) (now : Timeval) : List Byte :=
  let m := corePingFields abi m s_Index pid now
  let m := m.storeInt abi.order 2 2 (PingTest.inCksum abi m 0 sizeofIcmpPacket).toNat
  m.load 0 sizeofIcmpPacket

theorem load_gettimeofday_before (abi : Abi) (m : Mem) {a b n : ℕ} (now : Timeval)
    (h : b + n ≤ a) : (gettimeofday abi m a now).load b n = m.load b n := by
  simp only [gettimeofday]
  simp (disch := omega) only [Mem.load_storeInt_disjoint]

/-- No later write reaches the checksum word that was set to zero. -/
theorem loadInt_echoFields_checksum (abi : Abi) (s : EchoStatics) (now : Timeval) :
    (echoFields abi s now).loadInt abi.order 2 2 = 0 := by
  simp only [Mem.loadInt, echoFields]
  rw [load_gettimeofday_before _ _ _ (by omega), Mem.load_fill_disjoint _ _ (by omega)]
  simp (disch := omega) only [Mem.load_storeInt_disjoint, Mem.load_storeInt, ByteOrder.value_bytes]
  rfl

theorem loadInt_corePingFields_checksum (abi : Abi) (m : Mem) (s_Index pid : BitVec 32)
    (now : Timeval) : (corePingFields abi m s_Index pid now).loadInt abi.order 2 2 = 0 := by
  have hzero : (m.fill 0 sizeofIcmpPacket (fun _ => 0)).load 2 2 = [0, 0] := by
    simp [Mem.load, Mem.fill, sizeofIcmpPacket]
  simp only [Mem.loadInt, corePingFields]
  rw [load_gettimeofday_before _ _ _ (by omega)]
  simp (disch := omega) only [Mem.load_storeInt_disjoint, hzero]
  cases abi.order <;> rfl

theorem sendEchoRequest_verifies (abi : Abi) (s : EchoStatics) (now : Timeval) :
    Verifies 32 (sendEchoRequest abi s now).1 := by
  have hlen : sizeofEchoRequest abi ≤ 65535 ∧ 4 ≤ sizeofEchoRequest abi := by
    have hlong := abi.longBytes_eq
    simp only [sizeofEchoRequest, REQ_DATASIZE]
    omega
  exact verifies_storeInt_inCksum abi.order le_rfl (echoFields abi s now) 0 (c := 2) hlen.1
    (by omega) hlen.2 (by simpa using loadInt_echoFields_checksum abi s now) rfl

/-- The statics carry nothing from call to call that could spoil a checksum. -/
theorem sentRequests_verify (abi : Abi) (times : List Timeval) (s : EchoStatics) :
    ∀ packet ∈ sentRequests abi s times, Verifies 32 packet := by
  induction times generalizing s with
  | nil => simp [sentRequests]
  | cons now times ih =>
    intro packet hpacket
    rcases List.mem_cons.mp hpacket with rfl | hlater
    · exact sendEchoRequest_verifies abi s now
    · exact ih _ packet hlater

theorem length_of_mem_sentRequests (abi : Abi) (times : List Timeval) (s : EchoStatics) :
    ∀ packet ∈ sentRequests abi s times, packet.length = sizeofEchoRequest abi := by
  induction times generalizing s with
  | nil => simp [sentRequests]
  | cons now times ih =>
    intro packet hpacket
    rcases List.mem_cons.mp hpacket with rfl | hlater
    · exact Mem.length_load _ _ _
    · exact ih _ packet hlater

theorem length_sentRequests (abi : Abi) (times : List Timeval) (s : EchoStatics) :
    (sentRequests abi s times).length = times.length := by
  induction times generalizing s with
  | nil => rfl
  | cons now times ih => rw [sentRequests, List.length_cons, List.length_cons, ih]

theorem corePingRequest_verifies (abi : Abi) (m : Mem) (s_Index pid : BitVec 32) (now : Timeval) :
    Verifies (8 * abi.longBytes) (corePingRequest abi m s_Index pid now) := by
  have hlong : 32 ≤ 8 * abi.longBytes := by
    have h := abi.longBytes_eq
    omega
  exact verifies_storeInt_inCksum abi.order hlong (corePingFields abi m s_Index pid now) 0 (c := 2)
    (by decide) (by omega) (by decide)
    (by simpa using loadInt_corePingFields_checksum abi m s_Index pid now) rfl

theorem ipGen_verifies (o : ByteOrder) (m : Mem) (packet : ℕ) (protocol : Byte)
    (saddr daddr : BitVec 32) (length : BitVec 16) :
    Verifies 32 ((ipGen o m packet protocol saddr daddr length).load packet sizeofIphdr) :=
  verifies_storeInt_inCksum o le_rfl (ipFields o m packet protocol saddr daddr length) packet
    (c := 10) (by decide) (by omega) (by decide)
    (loadInt_ipFields_check o m packet protocol saddr daddr length) rfl

/-- Every checksummed header or message the builders emit verifies at a receiver. -/
theorem emitted_checksums_verify :
    (∀ (o : ByteOrder) (m : Mem) (packet : ℕ) (protocol : Byte) (saddr daddr : BitVec 32)
      (length : BitVec 16),
      Verifies 32 ((ipGen o m packet protocol saddr daddr length).load packet 20)) ∧
    (∀ (abi : Abi) (times : List Timeval), (sentRequests abi .initial times).length = times.length ∧
      ∀ packet ∈ sentRequests abi .initial times,
        packet.length = sizeofEchoRequest abi ∧ sizeofEchoRequest abi % 2 = 1 ∧ Verifies 32 packet) ∧
    (∀ (abi : Abi) (m : Mem) (s_Index pid : BitVec 32) (now : Timeval),
      (corePingRequest abi m s_Index pid now).length = 192 ∧
      Verifies (8 * abi.longBytes) (corePingRequest abi m s_Index pid now)) := by
  refine ⟨ipGen_verifies, ?_, ?_⟩
  · intro abi times
    refine ⟨length_sentRequests abi times _, ?_⟩
    intro packet hpacket
    refine ⟨?_, ?_, sentRequests_verify abi times _ packet hpacket⟩
    · exact length_of_mem_sentRequests abi times _ packet hpacket
    · have hlong := abi.longBytes_eq
      simp only [sizeofEchoRequest, REQ_DATASIZE]
      omega
  · intro abi m s_Index pid now
    exact ⟨Mem.length_load _ _ _, corePingRequest_verifies abi m s_Index pid now⟩

end WorkCode.EchoRequestBuilders
