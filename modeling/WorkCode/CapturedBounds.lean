import WorkCode.ByteMemory

/-!
# What the packet callbacks read of a captured frame

libpcap hands a callback the `caplen` bytes it captured of a frame that had `len` bytes on
the wire. The offsets that a callback reads depend on the bytes themselves; past `caplen`
the memory can hold anything, so the frame is a memory here and not a list of bytes.
-/

namespace WorkCode.CapturedBounds

structure PcapPkthdr where
  caplen : BitVec 32
  len : BitVec 32
  caplen_le_len : caplen.toNat ≤ len.toNat

def sizeofEtherHeader : ℕ := 14

def ethertypeIp : ℕ := 0x0800

def ipprotoTcp : Byte := 6

def etherType (packet : Mem) : ℕ := ByteOrder.big.value (packet.load 12 2)

def ipHl (packet : Mem) : ℕ := (packet sizeofEtherHeader).toNat % 16

/-- The offsets of the fields of `struct ip` that are read: `ip_v`, `ip_hl`, `ip_id`, `ip_ttl`,
`ip_src` and `ip_dst` to be printed, and `ip_p`. -/
def ipFields : List ℕ :=
  [0, 0, 4, 5, 8, 12, 13, 14, 15, 16, 17, 18, 19, 9].map (sizeofEtherHeader + ·)

/-- `tcph->source` and `tcph->dest`, behind the IP header length that the packet gives. -/
def tcpPorts (packet : Mem) : List ℕ :=
  [0, 1, 2, 3].map (sizeofEtherHeader + ipHl packet * 4 + ·)

/-- `while (length--) printf("%02x", *(packet++))`; a length past the `int` range counts
down through the wrap-around. -/
def hexDump : ℕ → ℕ → List ℕ
  | _, 0 => []
  | packet, length + 1 => packet :: hexDump (packet + 1) length

/-- The offsets that `callback` in `wired_capature.c` reads, in its order: the Ethernet
type, and in an IP packet the fields, the ports of a TCP segment and the dump. -/
def callback (pkthdr : PcapPkthdr) (packet : Mem) : List ℕ :=
  [12, 13] ++
    if etherType packet = ethertypeIp then
      ipFields ++
        (if packet (sizeofEtherHeader + 9) = ipprotoTcp then tcpPorts packet else []) ++
        hexDump sizeofEtherHeader pkthdr.len.toNat
    else []

/-- The offsets that `packet_injection` hands to `pcap_inject`, unless the injection device
cannot be opened. -/
def packetInjection (opened : Bool) (pkthdr : PcapPkthdr) : List ℕ :=
  if opened then List.range pkthdr.len.toNat else []

def Within (offsets : List ℕ) (n : ℕ) : Prop := ∀ i ∈ offsets, i < n

theorem within_append {xs ys : List ℕ} {n : ℕ} :
    Within (xs ++ ys) n ↔ Within xs n ∧ Within ys n := List.forall_mem_append

theorem within_map_add {xs : List ℕ} {k n : ℕ} :
    Within (xs.map (k + ·)) n ↔ ∀ x ∈ xs, k + x < n := List.forall_mem_map

theorem mem_hexDump {packet length i : ℕ} :
    i ∈ hexDump packet length ↔ packet ≤ i ∧ i < packet + length := by
  induction length generalizing packet with
  | zero =>
    simp only [hexDump, List.not_mem_nil, false_iff]
    omega
  | succ length ih =>
    simp only [hexDump, List.mem_cons, ih]
    omega

theorem within_hexDump {packet length n : ℕ} :
    Within (hexDump packet length) n ↔ length = 0 ∨ packet + length ≤ n := by
  constructor
  · intro h
    by_cases hzero : length = 0
    · exact .inl hzero
    · have hlast := h (packet + length - 1) (mem_hexDump.mpr (by omega))
      exact .inr (by omega)
  · intro h i hi
    have hmem := mem_hexDump.mp hi
    omega

/-- What the callback needs of the memory behind `packet`: the Ethernet header, and for an
IP packet also its fixed header, the ports, and `len` bytes behind the Ethernet header. -/
theorem within_callback_iff (pkthdr : PcapPkthdr) (packet : Mem) (n : ℕ) :
    Within (callback pkthdr packet) n ↔ sizeofEtherHeader ≤ n ∧
      (etherType packet = ethertypeIp → sizeofEtherHeader + 20 ≤ n ∧
        (packet (sizeofEtherHeader + 9) = ipprotoTcp → sizeofEtherHeader + ipHl packet * 4 + 4 ≤ n) ∧
        (pkthdr.len.toNat = 0 ∨ sizeofEtherHeader + pkthdr.len.toNat ≤ n)) := by
  have hether : Within [12, 13] n ↔ sizeofEtherHeader ≤ n := by
    simp only [Within, List.forall_mem_cons, List.not_mem_nil, false_implies, implies_true, and_true,
      sizeofEtherHeader]
    omega
  have hip : Within ipFields n ↔ sizeofEtherHeader + 20 ≤ n := by
    simp only [ipFields, within_map_add, List.forall_mem_cons, List.not_mem_nil, false_implies,
      implies_true, and_true]
    omega
  have htcp : Within (tcpPorts packet) n ↔ sizeofEtherHeader + ipHl packet * 4 + 4 ≤ n := by
    simp only [tcpPorts, within_map_add, List.forall_mem_cons, List.not_mem_nil, false_implies,
      implies_true, and_true]
    omega
  have hnil : Within [] n := by
    intro i hi
    cases hi
  rw [callback, within_append, hether]
  by_cases htype : etherType packet = ethertypeIp
  · by_cases hproto : packet (sizeofEtherHeader + 9) = ipprotoTcp
    · simp [htype, hproto, within_append, hip, htcp, within_hexDump]
    · simp [htype, hproto, within_append, hip, within_hexDump]
  · simp [htype, hnil]

theorem within_packetInjection_iff (opened : Bool) (pkthdr : PcapPkthdr) (n : ℕ) :
    Within (packetInjection opened pkthdr) n ↔ (opened = true → pkthdr.len.toNat ≤ n) := by
  cases opened with
  | false => simp [packetInjection, Within]
  | true =>
    simp only [packetInjection, if_true, Within, List.mem_range, forall_const]
    constructor
    · intro h
      by_contra hlt
      have hself := h n (by omega)
      omega
    · intro h i hi
      omega

/-- The callbacks stay inside the captured bytes in exactly these cases: `callback` on a
complete Ethernet header that does not announce an IP packet, and `packet_injection` on a
frame that was captured as a whole. -/
theorem within_caplen_iff (pkthdr : PcapPkthdr) (packet : Mem) (opened : Bool) :
    (Within (callback pkthdr packet) pkthdr.caplen.toNat ↔
        sizeofEtherHeader ≤ pkthdr.caplen.toNat ∧ etherType packet ≠ ethertypeIp) ∧
      (Within (packetInjection opened pkthdr) pkthdr.caplen.toNat ↔
        (opened = true → pkthdr.caplen = pkthdr.len)) := by
  have hle := pkthdr.caplen_le_len
  constructor
  · rw [within_callback_iff]
    constructor
    · rintro ⟨hether, hip⟩
      refine ⟨hether, ?_⟩
      intro htype
      -- the dump counts `len` bytes from behind the Ethernet header
      have hdump := (hip htype).2.2
      simp only [sizeofEtherHeader] at hether hdump
      omega
    · rintro ⟨hether, htype⟩
      exact ⟨hether, fun h => absurd h htype⟩
  · rw [within_packetInjection_iff, ← BitVec.toNat_inj]
    constructor
    · intro h hopened
      have hlen := h hopened
      omega
    · intro h hopened
      have hlen := h hopened
      omega

def ipFrame : Mem := fun i => [0x02, 0, 0, 0, 0, 1, 0x02, 0, 0, 0, 0, 2, 0x08, 0x00, 0x45].getD i 0

def wholeFrame : PcapPkthdr := ⟨60, 60, le_rfl⟩

/-- A jumbo frame of which the snapshot length `BUFSIZ` was captured. -/
def cutFrame : PcapPkthdr := ⟨8192, 9000, by decide⟩

theorem callbacks_read_past_caplen :
    ¬ (∀ (pkthdr : PcapPkthdr) (packet : Mem),
        Within (callback pkthdr packet) pkthdr.caplen.toNat) ∧
      ¬ (∀ (pkthdr : PcapPkthdr) (opened : Bool),
        Within (packetInjection opened pkthdr) pkthdr.caplen.toNat) := by
  constructor
  · intro h
    have hneeds := (within_callback_iff wholeFrame ipFrame 60).mp (h wholeFrame ipFrame)
    have hdump := (hneeds.2 rfl).2.2
    revert hdump
    decide
  · intro h
    have hneeds := (within_packetInjection_iff true cutFrame 8192).mp (h cutFrame true) rfl
    revert hneeds
    decide

end WorkCode.CapturedBounds
