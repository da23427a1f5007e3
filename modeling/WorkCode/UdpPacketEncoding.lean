import WorkCode.UdpPacketBuilders

/-!
# Reading a built UDP packet back

What a receiver decodes from the bytes `create_udp_packet` leaves, against the
arguments it was called with. The headers and the two station addresses always come
through. The message goes through `strncpy`, so it does exactly when no byte other
than NUL follows a NUL in it.
-/

namespace WorkCode.UdpPacketBuilders

open InternetAddress

/-- The packet in `m'` decodes to these arguments, and `m'` is `m` beyond its end. -/
structure Encodes (m m' : Mem) (packet offset : ℕ) (src dst : Quad) (sport dport : BitVec 16)
    (payload : List Byte) : Prop where
  totalLength : ByteOrder.big.value (m'.load (packet + 2) 2) = offset
  udpLength : ByteOrder.big.value (m'.load (packet + 24) 2) = offset - 20
  source : m'.load (packet + 12) 4 = src.octets
  destination : m'.load (packet + 16) 4 = dst.octets
  sourcePort : ByteOrder.big.value (m'.load (packet + 20) 2) = sport.toNat
  destinationPort : ByteOrder.big.value (m'.load (packet + 22) 2) = dport.toNat
  payload : m'.load (packet + 28) (offset - 28) = payload
  tail : ∀ i, packet + offset ≤ i → m' i = m i

/-- Over every buffer the packet encodes the arguments, and none of its bytes comes
from the buffer. -/
def CompleteDatagram (create : Mem → Mem × ℕ) (packet : ℕ) (src dst : Quad)
    (sport dport : BitVec 16) (payload : List Byte) : Prop :=
  ∀ m, Encodes m (create m).1 packet (create m).2 src dst sport dport payload ∧
    ∀ m', (create m').2 = (create m).2 ∧
      (create m').1.load packet (create m).2 = (create m).1.load packet (create m).2

def NulPadded (bs : List Byte) : Prop := bs.Pairwise (fun a b => a = 0 → b = 0)

theorem length_strncpy (n : ℕ) (src : List Byte) : (strncpy n src).length = n := by
  induction n, src using strncpy.induct with
  | case1 => rfl
  | case2 n => simp [strncpy]
  | case3 n src => simp [strncpy]
  | case4 n b src h ih => rw [strncpy, if_neg h, List.length_cons, ih]

theorem strncpy_eq_self_iff (src : List Byte) : strncpy src.length src = src ↔ NulPadded src := by
  induction src with
  | nil => simp [strncpy, NulPadded]
  | cons b src ih =>
    by_cases hb : b = 0
    · subst hb
      have hzero : NulPadded (0 :: src) ↔ ∀ x ∈ src, x = 0 := by
        refine ⟨fun h x hx => (List.pairwise_cons.mp h).1 x hx rfl, fun h => ?_⟩
        refine List.pairwise_cons.mpr ⟨fun x hx _ => h x hx, ?_⟩
        exact List.pairwise_of_forall_mem_list (fun x _ y hy _ => h y hy)
      rw [hzero, List.length_cons, strncpy, if_pos rfl, List.replicate_succ, List.cons.injEq,
        eq_comm (a := List.replicate _ _), List.eq_replicate_iff]
      simp
    · have hcons : NulPadded (b :: src) ↔ NulPadded src := by
        refine ⟨fun h => (List.pairwise_cons.mp h).2, fun h => ?_⟩
        exact List.pairwise_cons.mpr ⟨fun x _ h0 => absurd h0 hb, h⟩
      rw [hcons, ← ih, List.length_cons, strncpy, if_neg hb, List.cons.injEq]
      simp

section Headers

variable (o : ByteOrder) (m : Mem) (packet : ℕ) (src dst : Quad) (sport dport : BitVec 16)

def headers (n : ℕ) : Mem :=
  udpGen o (ipGen o m packet IPPROTO_UDP (inetAddr o src.dotted) (inetAddr o dst.dotted)
    (BitVec.ofNat 16 n)) (packet + 20) sport dport (BitVec.ofNat 16 (n - 20))

theorem headers_outside {n i : ℕ} (h : packet + 28 ≤ i) :
    headers o m packet src dst sport dport n i = m i := by
  rw [headers, udpGen_outside _ _ _ _ _ _ (by omega), ipGen_outside _ _ _ _ _ _ _ (by omega)]

theorem encodes_iff {n : ℕ} {m' : Mem} {payload : List Byte} (hlen : 28 ≤ n) (hn : n < 65536)
    (hhead : m'.AgreeOn (headers o m packet src dst sport dport n) packet 28)
    (htail : ∀ i, packet + n ≤ i → m' i = m i) :
    Encodes m m' packet n src dst sport dport payload ↔
      m'.load (packet + 28) (n - 28) = payload := by
  have part : ∀ {b k : ℕ}, packet ≤ b → b + k ≤ packet + 28 →
      m'.load b k = (headers o m packet src dst sport dport n).load b k := by
    intro b k hb hk
    exact Mem.load_congr (fun i hi hik => hhead i (by omega) (by omega))
  have field : ∀ {v : ℕ}, v < 65536 →
      ByteOrder.big.value (o.bytes 2 (htons o (BitVec.ofNat 16 v)).toNat) = v := by
    intro v hv
    rw [value_bytes_htons, BitVec.toNat_ofNat, Nat.mod_eq_of_lt hv]
  refine ⟨fun h => h.payload, fun hpayload => ?_⟩
  exact {
    totalLength := by
      rw [part (by omega) (by omega), headers, load_udpGen_before _ _ _ _ _ _ (by omega),
        load_ipGen_totalLength, field (by omega)]
    udpLength := by
      rw [part (by omega) (by omega), headers, load_udpGen_len, field (by omega)]
    source := by
      rw [part (by omega) (by omega), headers, load_udpGen_before _ _ _ _ _ _ (by omega),
        load_ipGen_source, bytes_inetAddr_dotted]
    destination := by
      rw [part (by omega) (by omega), headers, load_udpGen_before _ _ _ _ _ _ (by omega),
        load_ipGen_destination, bytes_inetAddr_dotted]
    sourcePort := by
      rw [part (by omega) (by omega), headers, load_udpGen_source, value_bytes_htons]
    destinationPort := by
      rw [part (by omega) (by omega), headers, load_udpGen_dest, value_bytes_htons]
    payload := hpayload
    tail := htail }

theorem agreeOn_headers (m' : Mem) (n : ℕ) :
    Mem.AgreeOn (headers o m packet src dst sport dport n)
      (headers o m' packet src dst sport dport n) packet 28 :=
  agreeOn_udpGen o _ _ _ (agreeOn_ipGen o m packet _ _ _ _ m')

/-- A packet made of the headers and a block `bs` after them is complete exactly when
the block is the payload. -/
theorem completeDatagram_iff (bs payload : List Byte) (hbs : bs.length < 65536 - 28) :
    CompleteDatagram (fun m => ((headers o m packet src dst sport dport (28 + bs.length)).store
        (packet + 28) bs, 28 + bs.length)) packet src dst sport dport payload ↔ bs = payload := by
  have hload : ∀ m : Mem, (m.store (packet + 28) bs).load (packet + 28) (28 + bs.length - 28) = bs := by
    intro m
    rw [Nat.add_sub_cancel_left, Mem.load_store]
  have hiff : ∀ m : Mem, Encodes m ((headers o m packet src dst sport dport (28 + bs.length)).store
      (packet + 28) bs) packet (28 + bs.length) src dst sport dport payload ↔ bs = payload := by
    intro m
    rw [encodes_iff o m packet src dst sport dport (by omega) (by omega), hload]
    · intro i hi hn
      exact Mem.store_outside _ _ (by omega)
    · intro i hi
      rw [Mem.store_outside _ _ (by omega), headers_outside _ _ _ _ _ _ _ (by omega)]
  constructor
  · intro h
    exact (hiff (fun _ => 0)).mp (h _).1
  · intro h m
    refine ⟨(hiff m).mpr h, fun m' => ⟨rfl, Mem.AgreeOn.load_eq ?_⟩⟩
    apply (agreeOn_headers o m' packet src dst sport dport m _).store
    intro i hi hn
    dsimp only at hn
    omega

end Headers

section Versions

variable (o : ByteOrder) (MESG : Vector Byte MESG_LENGTH) (packet : ℕ) (src dst : Quad)
  (sport dport : BitVec 16)

theorem arpInject_complete_iff :
    CompleteDatagram (fun m => ArpInject.createUdpPacket o MESG m packet src.dotted sport
      dst.dotted dport) packet src dst sport dport MESG.toList ↔ NulPadded MESG.toList := by
  have hlen := length_strncpy MESG_LENGTH MESG.toList
  have h := completeDatagram_iff o packet src dst sport dport
    (strncpy MESG_LENGTH MESG.toList) MESG.toList (by rw [hlen]; decide)
  rw [hlen] at h
  have hself := strncpy_eq_self_iff MESG.toList
  rw [Vector.length_toList] at hself
  exact h.trans hself

theorem udpInject_complete_iff (bssid station_mac : Vector Byte ETH_ALEN) :
    CompleteDatagram (fun m => UdpInject.createUdpPacket o MESG m packet src.dotted sport
      dst.dotted dport bssid station_mac) packet src dst sport dport
      (MESG.toList ++ bssid.toList ++ station_mac.toList) ↔ NulPadded MESG.toList := by
  have hlen := length_strncpy MESG_LENGTH MESG.toList
  set body := strncpy MESG_LENGTH MESG.toList with hbody
  have hbssid : bssid.toList.length = 6 := Vector.length_toList
  have hstation : station_mac.toList.length = 6 := Vector.length_toList
  have hall : (body ++ bssid.toList ++ station_mac.toList).length = 17 := by
    rw [List.length_append, List.length_append, hlen, hbssid, hstation]
    rfl
  have hstore : ∀ (m : Mem) (a : ℕ), ((m.store a body).store (a + 5) bssid.toList).store
      (a + 5 + 6) station_mac.toList = m.store a (body ++ bssid.toList ++ station_mac.toList) := by
    intro m a
    rw [Mem.store_append, Mem.store_append, List.length_append, hlen, hbssid]
    rfl
  have h := completeDatagram_iff o packet src dst sport dport
    (body ++ bssid.toList ++ station_mac.toList)
    (MESG.toList ++ bssid.toList ++ station_mac.toList) (by rw [hall]; decide)
  simp only [hall, ← hstore] at h
  have hself := strncpy_eq_self_iff MESG.toList
  rw [Vector.length_toList] at hself
  rw [List.append_left_inj, List.append_left_inj] at h
  exact h.trans hself

/-- Both versions of `create_udp_packet` encode a complete datagram exactly when `MESG`
holds nothing but NULs after its first NUL. -/
theorem createUdpPacket_complete_iff (bssid station_mac : Vector Byte ETH_ALEN) :
    (CompleteDatagram (fun m => ArpInject.createUdpPacket o MESG m packet src.dotted sport
      dst.dotted dport) packet src dst sport dport MESG.toList ↔ NulPadded MESG.toList) ∧
    (CompleteDatagram (fun m => UdpInject.createUdpPacket o MESG m packet src.dotted sport
      dst.dotted dport bssid station_mac) packet src dst sport dport
      (MESG.toList ++ bssid.toList ++ station_mac.toList) ↔ NulPadded MESG.toList) :=
  ⟨arpInject_complete_iff o MESG packet src dst sport dport,
    udpInject_complete_iff o MESG packet src dst sport dport bssid station_mac⟩

end Versions

/-- A NUL inside the message loses the bytes after it. -/
theorem createUdpPacket_loses_bytes_after_nul :
    ¬ (∀ (MESG : Vector Byte MESG_LENGTH) (bssid station_mac : Vector Byte ETH_ALEN),
      CompleteDatagram (fun m => ArpInject.createUdpPacket .little MESG m 0 (Quad.mk 10 51 49 7).dotted
        7000 (Quad.mk 172 16 0 20).dotted 7000) 0 ⟨10, 51, 49, 7⟩ ⟨172, 16, 0, 20⟩ 7000 7000
        MESG.toList ∧
      CompleteDatagram (fun m => UdpInject.createUdpPacket .little MESG m 0 (Quad.mk 10 51 49 7).dotted
        7000 (Quad.mk 172 16 0 20).dotted 7000 bssid station_mac) 0 ⟨10, 51, 49, 7⟩ ⟨172, 16, 0, 20⟩
        7000 7000 (MESG.toList ++ bssid.toList ++ station_mac.toList)) := by
  intro h
  have hpad := (arpInject_complete_iff .little #v[0x10, 0x00, 0xff, 0x12, 0x42] 0 _ _ _ _).mp
    (h #v[0x10, 0x00, 0xff, 0x12, 0x42] (Vector.replicate 6 0) (Vector.replicate 6 0)).1
  revert hpad
  unfold NulPadded
  decide

end WorkCode.UdpPacketBuilders
