import WorkCode.InternetChecksum

/-!
# What the `in_cksum` copies agree on

On a region no longer than an IP datagram every copy returns the Internet checksum,
no addition on its accumulator overflows, and hosts of either byte order store the
same two bytes. Beyond that size the width of the accumulator shows: an `int` copy
and the `long` copy agree exactly while the plain sum stays below the sign bit.
-/

namespace WorkCode.InternetChecksum

open OnesComplement

/-- The checksum as it is specified: the complement of the one's-complement sum of
the 16-bit words. -/
def rfc1071 (o : ByteOrder) (bs : List Byte) : BitVec 16 :=
  ~~~BitVec.ofNat 16 (onesSum 65536 (regionWords o bs))

/-- The operands of the signed additions that the loop performs on `sum`. -/
def sumLoopAdds (o : ByteOrder) (bits : ℕ) (m : Mem) :
    ℕ → ℕ → BitVec bits → List (BitVec bits × BitVec bits)
  | w, nleft + 2, sum =>
    (sum, BitVec.ofNat bits (m.loadInt o w 2)) ::
      sumLoopAdds o bits m (w + 2) nleft (sum + BitVec.ofNat bits (m.loadInt o w 2))
  | w, 1, sum => [(sum, BitVec.ofNat bits (o.value [m w, 0]))]
  | _, 0, _ => []

/-- The operands of the two additions that fold the carries back. -/
def foldSumAdds {bits : ℕ} (sum : BitVec bits) : List (BitVec bits × BitVec bits) :=
  let folded := sum.sshiftRight 16 + (sum &&& 0xffff)
  [(sum.sshiftRight 16, sum &&& 0xffff), (folded, folded.sshiftRight 16)]

/-- All signed additions of one run of `in_cksum`, in the order it performs them. -/
def inCksumAdds (o : ByteOrder) (bits : ℕ) (m : Mem) (addr : ℕ) (len : ℤ) :
    List (BitVec bits × BitVec bits) :=
  sumLoopAdds o bits m addr len.toNat 0 ++ foldSumAdds (sumLoop o bits m addr len.toNat 0)

/-- Additions that carry an accumulator from one value to another. -/
def Accumulates {bits : ℕ} : BitVec bits → List (BitVec bits × BitVec bits) → BitVec bits → Prop
  | sum, [], last => sum = last
  | sum, (x, y) :: adds, last => sum = x ∧ Accumulates (x + y) adds last

theorem accumulates_sumLoopAdds (o : ByteOrder) {bits : ℕ} (m : Mem) (w n : ℕ) (sum : BitVec bits) :
    Accumulates sum (sumLoopAdds o bits m w n sum) (sumLoop o bits m w n sum) := by
  induction w, n, sum using sumLoop.induct o bits m with
  | case1 w n sum ih => exact ⟨rfl, ih⟩
  | case2 w sum => exact ⟨rfl, rfl⟩
  | case3 w sum => rfl

/-- The result is what these additions come to: those of the loop from 0, and those of the folds from
the top bits of that sum. -/
theorem inCksumOfWidth_eq_of_inCksumAdds (o : ByteOrder) (bits : ℕ) (m : Mem) (addr : ℕ) (len : ℤ) :
    ∃ loopAdds foldAdds sum last, inCksumAdds o bits m addr len = loopAdds ++ foldAdds ∧
      Accumulates 0 loopAdds sum ∧ Accumulates (sum.sshiftRight 16) foldAdds last ∧
      inCksumOfWidth o bits m addr len = (~~~last).setWidth 16 :=
  ⟨_, _, _, _, rfl, accumulates_sumLoopAdds o m addr len.toNat 0, ⟨rfl, rfl, rfl⟩, rfl⟩

theorem toNat_rfc1071 (o : ByteOrder) (bs : List Byte) :
    (rfc1071 o bs).toNat = 65535 - onesSum 65536 (regionWords o bs) := by
  have hlt := canon_lt (B := 65536) (by omega) (regionWords o bs).sum
  rw [← onesSum_eq (by omega) (regionWords_lt o bs)] at hlt
  rw [rfc1071, BitVec.toNat_not, BitVec.toNat_ofNat, Nat.mod_eq_of_lt (by omega)]

theorem inCksumOfWidth_eq_rfc1071 (o : ByteOrder) {bits : ℕ} (hbits : 32 ≤ bits) (m : Mem)
    (addr : ℕ) {n : ℕ} (hn : n ≤ 65535) :
    inCksumOfWidth o bits m addr n = rfc1071 o (m.load addr n) := by
  apply BitVec.eq_of_toNat_eq
  rw [toNat_inCksumOfWidth o hbits m addr hn, toNat_rfc1071]

theorem saddOverflow_of_lt {bits : ℕ} (hbits : 32 ≤ bits) {x y : BitVec bits}
    (h : x.toNat + y.toNat < 2 ^ 31) : x.saddOverflow y = false := by
  have hpow : 2 ^ 32 ≤ 2 ^ bits := Nat.pow_le_pow_right (by omega) hbits
  have hhalf : (2 : ℤ) ^ 31 ≤ 2 ^ (bits - 1) := by
    exact_mod_cast Nat.pow_le_pow_right (n := 2) (by omega) (show 31 ≤ bits - 1 by omega)
  rw [saddOverflow_eq_false_iff, BitVec.toInt_eq_toNat_of_lt (by omega),
    BitVec.toInt_eq_toNat_of_lt (by omega)]
  omega

/-- The loop does not overflow while what it has added and what is left stay below
the sign bit together. -/
theorem sumLoopAdds_fit (o : ByteOrder) {bits : ℕ} (hbits : 32 ≤ bits) (m : Mem) (w n : ℕ)
    (sum : BitVec bits) (h : sum.toNat + (regionWords o (m.load w n)).sum < 2 ^ 31) :
    ∀ p ∈ sumLoopAdds o bits m w n sum, p.1.saddOverflow p.2 = false := by
  have hpow : 2 ^ 32 ≤ 2 ^ bits := Nat.pow_le_pow_right (by omega) hbits
  have word : ∀ x, x < 2 ^ 31 → (BitVec.ofNat bits x).toNat = x := by
    intro x hx
    rw [BitVec.toNat_ofNat, Nat.mod_eq_of_lt (by omega)]
  induction w, n, sum using sumLoop.induct o bits m with
  | case1 w n sum ih =>
    change sum.toNat + (m.loadInt o w 2 + (regionWords o (m.load (w + 2) n)).sum) < 2 ^ 31 at h
    have hword := word (m.loadInt o w 2) (by omega)
    have hnext : (sum + BitVec.ofNat bits (m.loadInt o w 2)).toNat = sum.toNat + m.loadInt o w 2 := by
      rw [BitVec.toNat_add, hword, Nat.mod_eq_of_lt (by omega)]
    have hrest := ih (by omega)
    have hhead : sum.saddOverflow (BitVec.ofNat bits (m.loadInt o w 2)) = false :=
      saddOverflow_of_lt hbits (by omega)
    intro p hp
    cases hp with
    | head => exact hhead
    | tail _ htail => exact hrest p htail
  | case2 w sum =>
    change sum.toNat + o.value [m w, 0] < 2 ^ 31 at h
    have hword := word (o.value [m w, 0]) (by omega)
    have hlast : sum.saddOverflow (BitVec.ofNat bits (o.value [m w, 0])) = false :=
      saddOverflow_of_lt hbits (by omega)
    intro p hp
    rw [List.mem_singleton.mp hp]
    exact hlast
  | case3 w sum =>
    intro p hp
    cases hp

theorem inCksumAdds_fit (o : ByteOrder) {bits : ℕ} (hbits : 32 ≤ bits) (m : Mem) (addr : ℕ)
    {n : ℕ} (hn : n ≤ 65535) :
    ∀ p ∈ inCksumAdds o bits m addr n, p.1.saddOverflow p.2 = false := by
  intro p hp
  rcases List.mem_append.mp hp with hloop | hfold
  · have hlt := sum_regionWords_lt o (m.load addr n) (by simpa using hn)
    exact sumLoopAdds_fit o hbits m addr n 0 (by simpa using hlt) p hloop
  · cases hfold with
    | head => exact saddOverflow_high_low hbits _
    | tail _ hcarry =>
      rw [List.mem_singleton.mp hcarry]
      exact saddOverflow_carry hbits _ rfl

/-- Every copy returns the Internet checksum of every region that fits an IP datagram,
and its accumulator never overflows on the way. -/
theorem inCksum_copies_eq_rfc1071 (abi : Abi) (m : Mem) (addr n : ℕ) (hn : n ≤ 65535) :
    (∀ p ∈ inCksumAdds abi.order 32 m addr n, p.1.saddOverflow p.2 = false) ∧
      (∀ p ∈ inCksumAdds abi.order (8 * abi.longBytes) m addr n, p.1.saddOverflow p.2 = false) ∧
      Ping.inCksum abi.order m addr n = rfc1071 abi.order (m.load addr n) ∧
      Inject.inCksum abi.order m addr n = rfc1071 abi.order (m.load addr n) ∧
      PingTest.inCksum abi m addr n = rfc1071 abi.order (m.load addr n) := by
  have hlong : 32 ≤ 8 * abi.longBytes := by
    have h := abi.longBytes_eq
    omega
  refine ⟨inCksumAdds_fit _ le_rfl m addr hn, inCksumAdds_fit _ hlong m addr hn, ?_, ?_, ?_⟩
  · exact inCksumOfWidth_eq_rfc1071 _ le_rfl m addr hn
  · exact inCksumOfWidth_eq_rfc1071 _ le_rfl m addr hn
  · exact inCksumOfWidth_eq_rfc1071 _ hlong m addr hn

theorem inCksum_copies_eq_rfc1071_largest :
    Ping.inCksum .big (fun _ => 0x41) 0 65535 = rfc1071 .big (Mem.load (fun _ => 0x41) 0 65535) :=
  (inCksum_copies_eq_rfc1071 (Abi.lp64 .big) (fun _ => 0x41) 0 65535 le_rfl).2.2.1

def swapBytes (x : ℕ) : ℕ := x % 256 * 256 + x / 256

theorem little_bytes_eq_big_bytes {x : ℕ} (hx : x < 65536) :
    ByteOrder.little.bytes 2 x = ByteOrder.big.bytes 2 (swapBytes x) := by
  have hdiv : swapBytes x / 256 = x % 256 := by
    rw [swapBytes]
    omega
  have hmod : swapBytes x % 256 = x / 256 := by
    rw [swapBytes]
    omega
  have hlow : BitVec.ofNat 8 x = BitVec.ofNat 8 (swapBytes x / 256) := by
    apply BitVec.eq_of_toNat_eq
    rw [hdiv, BitVec.toNat_ofNat, BitVec.toNat_ofNat]
    omega
  have hhigh : BitVec.ofNat 8 (x / 256) = BitVec.ofNat 8 (swapBytes x) := by
    apply BitVec.eq_of_toNat_eq
    rw [BitVec.toNat_ofNat, BitVec.toNat_ofNat]
    omega
  simp [ByteOrder.bytes, ByteOrder.littleBytes, hlow, hhigh]

/-- The machine that reads the words the other way round gets the sum with its bytes
exchanged, the two zeros kept apart. -/
theorem onesSum_big_eq_swapBytes (bs : List Byte) :
    onesSum 65536 (regionWords .big bs) = swapBytes (onesSum 65536 (regionWords .little bs)) := by
  rw [onesSum_eq (by omega) (regionWords_lt _ _), onesSum_eq (by omega) (regionWords_lt _ _)]
  set little := (regionWords .little bs).sum with hlittle
  set big := (regionWords .big bs).sum with hbig
  have hlt := canon_lt (B := 65536) (by omega) little
  have hcong : big ≡ swapBytes (canon 65536 little) [MOD 65535] := by
    have hsum : 256 * little ≡ big [MOD 65535] := sum_regionWords_modEq bs
    have hcanon : canon 65536 little ≡ little [MOD 65535] := canon_modEq little
    simp only [Nat.ModEq, swapBytes] at hsum hcanon ⊢
    omega
  have hzero : big = 0 ↔ swapBytes (canon 65536 little) = 0 := by
    have hbytes : big = 0 ↔ little = 0 := by
      rw [hbig, hlittle, sum_regionWords_eq_zero_iff, sum_regionWords_eq_zero_iff]
    have hcanon := canon_eq_zero (B := 65536) (n := little)
    rw [swapBytes]
    omega
  have hswap : swapBytes (canon 65536 little) < 65536 := by
    rw [swapBytes]
    omega
  rw [← canon_of_lt (by omega) hswap]
  exact canon_eq_iff.mpr ⟨hcong, hzero⟩

theorem rfc1071_bytes_eq (o o' : ByteOrder) (bs : List Byte) :
    o.bytes 2 (rfc1071 o bs).toNat = o'.bytes 2 (rfc1071 o' bs).toNat := by
  have hcross : ByteOrder.little.bytes 2 (rfc1071 .little bs).toNat =
      ByteOrder.big.bytes 2 (rfc1071 .big bs).toNat := by
    have hlt := canon_lt (B := 65536) (by omega) (regionWords .little bs).sum
    rw [← onesSum_eq (by omega) (regionWords_lt .little bs)] at hlt
    have hcomplement : swapBytes (rfc1071 .little bs).toNat = (rfc1071 .big bs).toNat := by
      rw [toNat_rfc1071, toNat_rfc1071, onesSum_big_eq_swapBytes, swapBytes, swapBytes]
      omega
    rw [little_bytes_eq_big_bytes (BitVec.isLt _), hcomplement]
  cases o with
  | little =>
    cases o' with
    | little => rfl
    | big => exact hcross
  | big =>
    cases o' with
    | little => exact hcross.symm
    | big => rfl

/-- The bytes a host stores for the checksum do not depend on its byte order. -/
theorem inCksum_bytes_eq (abi abi' : Abi) (m : Mem) (addr n : ℕ) (hn : n ≤ 65535) :
    abi.order.bytes 2 (Ping.inCksum abi.order m addr n).toNat =
        abi'.order.bytes 2 (Ping.inCksum abi'.order m addr n).toNat ∧
      abi.order.bytes 2 (Inject.inCksum abi.order m addr n).toNat =
        abi'.order.bytes 2 (Inject.inCksum abi'.order m addr n).toNat ∧
      abi.order.bytes 2 (PingTest.inCksum abi m addr n).toNat =
        abi'.order.bytes 2 (PingTest.inCksum abi' m addr n).toNat := by
  have stored : ∀ bits bits', 32 ≤ bits → 32 ≤ bits' →
      abi.order.bytes 2 (inCksumOfWidth abi.order bits m addr n).toNat =
        abi'.order.bytes 2 (inCksumOfWidth abi'.order bits' m addr n).toNat := by
    intro bits bits' hbits hbits'
    rw [inCksumOfWidth_eq_rfc1071 _ hbits m addr hn, inCksumOfWidth_eq_rfc1071 _ hbits' m addr hn]
    exact rfc1071_bytes_eq _ _ _
  have hlong := abi.longBytes_eq
  have hlong' := abi'.longBytes_eq
  exact ⟨stored _ _ le_rfl le_rfl, stored _ _ le_rfl le_rfl, stored _ _ (by omega) (by omega)⟩

theorem inCksum_bytes_eq_oddRegion :
    ByteOrder.little.bytes 2 (Ping.inCksum .little (fun _ => 0x41) 0 7).toNat =
      ByteOrder.big.bytes 2 (Ping.inCksum .big (fun _ => 0x41) 0 7).toNat :=
  (inCksum_bytes_eq (Abi.lp64 .little) ⟨.big, 4, Or.inl rfl⟩ (fun _ => 0x41) 0 7 (by omega)).1

/-- Both accumulators fold to the same checksum exactly while the sum does not reach
the sign bit of the narrow one. -/
theorem foldSum_narrow_eq_wide_iff {S : ℕ} (hS : S < 2 ^ 46) :
    foldSum (BitVec.ofNat 32 S) = foldSum (BitVec.ofNat 64 S) ↔ S < 2 ^ 31 := by
  have hwide := toNat_foldSum_eq (by omega) (BitVec.ofNat 64 S) rfl
  have hnarrow := toNat_foldSum_eq le_rfl (BitVec.ofNat 32 S) rfl
  rw [BitVec.toInt_eq_toNat_cond, BitVec.toNat_ofNat] at hwide hnarrow
  rw [← BitVec.toNat_inj]
  omega

def bufferSum (o : ByteOrder) (m : Mem) (addr : ℕ) (len : BitVec 32) : ℕ :=
  (regionWords o (m.load addr len.toInt.toNat)).sum

theorem bufferSum_lt (o : ByteOrder) (m : Mem) (addr : ℕ) (len : BitVec 32) :
    bufferSum o m addr len < 2 ^ 46 := by
  have hle := sum_regionWords_le o (m.load addr len.toInt.toNat)
  have hlen := BitVec.two_mul_toInt_lt (x := len)
  rw [Mem.length_load] at hle
  rw [bufferSum]
  omega

theorem inCksumOfWidth_eq_foldSum (o : ByteOrder) (bits : ℕ) (m : Mem) (addr : ℕ) (len : BitVec 32) :
    inCksumOfWidth o bits m addr len.toInt = foldSum (BitVec.ofNat bits (bufferSum o m addr len)) := by
  rw [inCksumOfWidth, sumLoop_eq, BitVec.ofNat_eq_ofNat, BitVec.zero_add, bufferSum]

theorem inCksumOfWidth_narrow_eq_wide_iff (o : ByteOrder) (m : Mem) (addr : ℕ) (len : BitVec 32) :
    inCksumOfWidth o 32 m addr len.toInt = inCksumOfWidth o 64 m addr len.toInt ↔
      bufferSum o m addr len < 2 ^ 31 := by
  rw [inCksumOfWidth_eq_foldSum, inCksumOfWidth_eq_foldSum]
  exact foldSum_narrow_eq_wide_iff (bufferSum_lt o m addr len)

/-- No buffer of at most 64 KiB tells the copies apart. -/
theorem bufferSum_lt_of_le (o : ByteOrder) (m : Mem) (addr : ℕ) {len : BitVec 32}
    (h : len.toInt ≤ 65536) : bufferSum o m addr len < 2 ^ 31 := by
  have hle := sum_regionWords_le o (m.load addr len.toInt.toNat)
  rw [Mem.length_load] at hle
  rw [bufferSum]
  omega

/-- Where `long` has 64 bits, the copies agree on exactly the buffers whose words sum
to less than `2 ^ 31`, and so on all of at most 64 KiB. -/
theorem inCksum_int_eq_long_iff (o : ByteOrder) (m : Mem) (addr : ℕ) (len : BitVec 32) :
    (Ping.inCksum o m addr len.toInt = PingTest.inCksum (Abi.lp64 o) m addr len.toInt ↔
        bufferSum o m addr len < 2 ^ 31) ∧
      (Inject.inCksum o m addr len.toInt = PingTest.inCksum (Abi.lp64 o) m addr len.toInt ↔
        bufferSum o m addr len < 2 ^ 31) ∧
      (len.toInt ≤ 65536 → bufferSum o m addr len < 2 ^ 31) :=
  ⟨inCksumOfWidth_narrow_eq_wide_iff o m addr len, inCksumOfWidth_narrow_eq_wide_iff o m addr len,
    bufferSum_lt_of_le o m addr⟩

theorem sum_regionWords_allOnes (o : ByteOrder) (addr k : ℕ) :
    (regionWords o (Mem.load (fun _ => 0xff) addr (2 * k))).sum = 65535 * k := by
  have hword : o.value [0xff, 0xff] = 65535 := by cases o <;> rfl
  induction k generalizing addr with
  | zero => simp [Mem.load, regionWords]
  | succ k ih =>
    rw [Nat.mul_succ]
    simp only [Mem.load, regionWords, hword, List.sum_cons, ih]
    omega

/-- Sixty-four kilobytes and four bytes of ones push the `int` sum past its sign bit. -/
theorem inCksum_int_ne_long :
    ¬ ∀ (o : ByteOrder) (m : Mem) (addr : ℕ) (len : BitVec 32),
      Ping.inCksum o m addr len.toInt = PingTest.inCksum (Abi.lp64 o) m addr len.toInt := by
  intro h
  have hlt := (inCksumOfWidth_narrow_eq_wide_iff .little (fun _ => 0xff) 0 65540).mp
    (h .little (fun _ => 0xff) 0 65540)
  have hsum : bufferSum .little (fun _ => 0xff) 0 65540 = 65535 * 32770 :=
    sum_regionWords_allOnes .little 0 32770
  rw [hsum] at hlt
  omega

end WorkCode.InternetChecksum
