import WorkCode.EchoRequestBuilders

/-!
# What `CORE_Ping` reads of a reply

A raw ICMP socket hands out whole IP datagrams. `CORE_Ping` looks at the length, at the
ICMP type and at the sequence number of the one datagram that it receives; the source
address and the identifier, which an echo reply carries back as well, are not compared.
-/

namespace WorkCode.EchoReplies

open EchoRequestBuilders

def ICMP_ECHOREPLY : Byte := 0

/-- What `recvfrom` leaves in the zeroed `s_ICMP_Packet`: the rest of a longer datagram is
dropped. -/
def received (datagram : List Byte) : List Byte := datagram.take sizeofIcmpPacket

/-- `s_IPHeader->ihl << 2` -/
def ihl (packet : List Byte) : ℕ := (packet.getD 0 0).toNat % 16 * 4

def icmpType (packet : List Byte) : Byte := packet.getD (ihl packet) 0

/-- A 16-bit field of `struct icmp`, read in the byte order of the host. -/
def icmpField (o : ByteOrder) (packet : List Byte) (offset : ℕ) : ℕ :=
  o.value [packet.getD (ihl packet + offset) 0, packet.getD (ihl packet + offset + 1) 0]

def icmpId (o : ByteOrder) (packet : List Byte) : ℕ := icmpField o packet 4

def icmpSeq (o : ByteOrder) (packet : List Byte) : ℕ := icmpField o packet 6

/-- `s_Return` after a datagram has been received. -/
def sReturn (o : ByteOrder) (datagram : List Byte) : ℤ :=
  let packet := received datagram
  if 76 ≤ packet.length then
    if icmpType packet = ICMP_ECHOREPLY then icmpSeq o packet else -1
  else -1

/-- An IP header: at least 20 bytes, and as long as it says. -/
def IpHeader := {header : List Byte // 20 ≤ header.length ∧ header.length = ihl header}

/-- The echo reply to a request: type and code zero, a checksum, and the rest unchanged. -/
def echoReply (o : ByteOrder) (header : IpHeader) (check : BitVec 16) (request : List Byte) :
    List Byte :=
  header.val ++ ([ICMP_ECHOREPLY, 0] ++ o.bytes 2 check.toNat ++ request.drop 4)

/-- What `getpid() & 0xffff` and `s_Index` leave in the request. -/
def requestId (pid : BitVec 32) : ℕ := (pid &&& 0xffff).toNat

def requestSeq (s_Index : BitVec 32) : ℕ := s_Index.toNat % 65536

theorem requestId_lt (pid : BitVec 32) : requestId pid < 65536 := by
  rw [requestId, BitVec.toNat_and]
  exact Nat.lt_of_le_of_lt Nat.and_le_right (by decide)

section Request

variable (abi : Abi) (m : Mem) (s_Index pid : BitVec 32) (now : Timeval)

theorem length_corePingRequest : (corePingRequest abi m s_Index pid now).length = sizeofIcmpPacket :=
  Mem.length_load _ _ _

theorem value_corePingRequest {k : ℕ} (hk : k + 2 ≤ sizeofIcmpPacket) :
    abi.order.value [(corePingRequest abi m s_Index pid now).getD k 0,
      (corePingRequest abi m s_Index pid now).getD (k + 1) 0] =
      ((corePingFields abi m s_Index pid now).storeInt abi.order 2 2
        (InternetChecksum.PingTest.inCksum abi (corePingFields abi m s_Index pid now) 0
          sizeofIcmpPacket).toNat).loadInt abi.order k 2 := by
  have hget : ∀ i < sizeofIcmpPacket, ∀ m' : Mem, (m'.load 0 sizeofIcmpPacket).getD i 0 = m' i := by
    intro i hi m'
    rw [List.getD_eq_getElem _ _ (by simpa using hi), Mem.getElem_load, Nat.zero_add]
  simp only [corePingRequest]
  rw [hget k (by omega), hget (k + 1) (by omega)]
  rfl

theorem id_corePingRequest :
    abi.order.value [(corePingRequest abi m s_Index pid now).getD 4 0,
      (corePingRequest abi m s_Index pid now).getD 5 0] = requestId pid := by
  rw [value_corePingRequest abi m s_Index pid now (by decide), Mem.loadInt,
    Mem.load_storeInt_disjoint _ _ _ (by omega), corePingFields,
    load_gettimeofday_before _ _ _ (by omega), Mem.load_storeInt, ByteOrder.value_bytes]
  exact Nat.mod_eq_of_lt (requestId_lt pid)

theorem seq_corePingRequest :
    abi.order.value [(corePingRequest abi m s_Index pid now).getD 6 0,
      (corePingRequest abi m s_Index pid now).getD 7 0] = requestSeq s_Index := by
  rw [value_corePingRequest abi m s_Index pid now (by decide), Mem.loadInt,
    Mem.load_storeInt_disjoint _ _ _ (by omega), corePingFields,
    load_gettimeofday_before _ _ _ (by omega), Mem.load_storeInt_disjoint _ _ _ (by omega),
    Mem.load_storeInt, ByteOrder.value_bytes]
  rfl

end Request

section Reply

variable (o : ByteOrder) (header : IpHeader) (check : BitVec 16) (request : List Byte)

theorem length_header_le : header.val.length ≤ 60 := by
  have h := header.property.2
  rw [ihl] at h
  omega

theorem getD_received {datagram : List Byte} {k : ℕ} (hk : k < sizeofIcmpPacket) :
    (received datagram).getD k 0 = datagram.getD k 0 := by
  rw [received, List.getD_eq_getElem?_getD, List.getD_eq_getElem?_getD, List.getElem?_take_of_lt hk]

theorem ihl_received_echoReply :
    ihl (received (echoReply o header check request)) = header.val.length := by
  have hpos := header.property.1
  have hfirst : (received (echoReply o header check request)).getD 0 0 = header.val.getD 0 0 := by
    rw [getD_received (by decide), echoReply, List.getD_append _ _ _ _ (by omega)]
  rw [ihl, hfirst, header.property.2, ihl]

/-- Behind the checksum a reply repeats the request. -/
theorem getD_received_echoReply {k : ℕ} (hk : k < 100) :
    (received (echoReply o header check request)).getD (header.val.length + (4 + k)) 0 =
      request.getD (4 + k) 0 := by
  have hle := length_header_le header
  have hstart : ([ICMP_ECHOREPLY, 0] ++ o.bytes 2 check.toNat).length = 4 := by simp
  have hsize : sizeofIcmpPacket = 192 := rfl
  rw [getD_received (by omega), echoReply, List.getD_append_right _ _ _ _ (by omega),
    Nat.add_sub_cancel_left, List.getD_append_right _ _ _ _ (by omega), hstart,
    Nat.add_sub_cancel_left, List.getD_eq_getElem?_getD, List.getElem?_drop,
    ← List.getD_eq_getElem?_getD]

theorem icmpType_echoReply :
    icmpType (received (echoReply o header check request)) = ICMP_ECHOREPLY := by
  have hle := length_header_le header
  have hsize : sizeofIcmpPacket = 192 := rfl
  rw [icmpType, ihl_received_echoReply, getD_received (by omega), echoReply,
    List.getD_append_right _ _ _ _ le_rfl, Nat.sub_self]
  rfl

theorem icmpField_echoReply {k : ℕ} (hk : k < 99) :
    icmpField o (received (echoReply o header check request)) (4 + k) =
      o.value [request.getD (4 + k) 0, request.getD (4 + (k + 1)) 0] := by
  rw [icmpField, ihl_received_echoReply, Nat.add_assoc _ (4 + k) 1, Nat.add_assoc 4 k 1,
    getD_received_echoReply o header check request (by omega),
    getD_received_echoReply o header check request (by omega)]

end Reply

section Answer

variable (abi : Abi) (header : IpHeader) (check : BitVec 16) (m : Mem) (s_Index pid : BitVec 32)
  (now : Timeval)

theorem icmpId_echoReply :
    icmpId abi.order (received (echoReply abi.order header check
      (corePingRequest abi m s_Index pid now))) = requestId pid :=
  (icmpField_echoReply abi.order header check _ (k := 0) (by omega)).trans
    (id_corePingRequest abi m s_Index pid now)

theorem icmpSeq_echoReply :
    icmpSeq abi.order (received (echoReply abi.order header check
      (corePingRequest abi m s_Index pid now))) = requestSeq s_Index :=
  (icmpField_echoReply abi.order header check _ (k := 2) (by omega)).trans
    (seq_corePingRequest abi m s_Index pid now)

theorem sReturn_echoReply :
    sReturn abi.order (echoReply abi.order header check (corePingRequest abi m s_Index pid now)) =
      requestSeq s_Index := by
  have hlen : 76 ≤ (received (echoReply abi.order header check
      (corePingRequest abi m s_Index pid now))).length := by
    have hsize : sizeofIcmpPacket = 192 := rfl
    have hrequest := length_corePingRequest abi m s_Index pid now
    simp only [received, echoReply, List.length_take, List.length_append, List.length_drop, hrequest]
    omega
  rw [sReturn, if_pos hlen, if_pos (icmpType_echoReply _ header check _),
    icmpSeq_echoReply abi header check m s_Index pid now]

end Answer

theorem sReturn_lt (o : ByteOrder) (datagram : List Byte) : sReturn o datagram < 65536 := by
  have hseq : icmpSeq o (received datagram) < 256 ^ 2 := o.value_lt _
  simp only [sReturn]
  split
  · split
    · omega
    · omega
  · omega

end WorkCode.EchoReplies
