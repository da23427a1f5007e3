import WorkCode.ByteMemory
import WorkCode.OnesComplementSum
import Mathlib.Algebra.Order.BigOperators.Group.List
import Mathlib.Data.Nat.Cast.Basic

/-!
# The `in_cksum` copies

All copies of `in_cksum` in the repository run the same loop and the same two
folding steps; they differ in the width of the accumulator (`int` or `long`).
The loop is embedded over that width, with two's-complement wrap-around and the
arithmetic right shift. Within the size of an IP datagram the accumulator stays
below `2 ^ 31`, and the result is the complement of the one's-complement sum.
-/

namespace WorkCode.InternetChecksum

open OnesComplement

/-- `while (nleft > 1) { sum += *w++; nleft -= 2; }` and the odd byte mopped up
afterwards, which lands at the lower address of a zeroed `u_short`. -/
def sumLoop (o : ByteOrder) (bits : ℕ) (m : Mem) : ℕ → ℕ → BitVec bits → BitVec bits
  | w, nleft + 2, sum => sumLoop o bits m (w + 2) nleft (sum + BitVec.ofNat bits (m.loadInt o w 2))
  | w, 1, sum => sum + BitVec.ofNat bits (o.value [m w, 0])
  | _, 0, sum => sum

/-- The carries of the top bits added back twice, then `answer = ~sum`. -/
def foldSum {bits : ℕ} (sum : BitVec bits) : BitVec 16 :=
  let sum := sum.sshiftRight 16 + (sum &&& 0xffff)
  let sum := sum + sum.sshiftRight 16
  (~~~sum).setWidth 16

/-- `in_cksum` with an accumulator of `bits` bits. The `int` length may be negative,
in which case the loop does not run and no odd byte is added. -/
def inCksumOfWidth (o : ByteOrder) (bits : ℕ) (m : Mem) (addr : ℕ) (len : ℤ) : BitVec 16 :=
  foldSum (sumLoop o bits m addr len.toNat 0)

/-- The copy in `ping.c`: `register int sum`. -/
def Ping.inCksum (o : ByteOrder) (m : Mem) (addr : ℕ) (len : ℤ) : BitVec 16 :=
  inCksumOfWidth o 32 m addr len

/-- The copies in `arp_inject.c` and `udp_inject.c`: `register int sum`. -/
def Inject.inCksum (o : ByteOrder) (m : Mem) (addr : ℕ) (len : ℤ) : BitVec 16 :=
  inCksumOfWidth o 32 m addr len

/-- The copy in `ping_test.c`: `register long sum`. -/
def PingTest.inCksum (abi : Abi) (m : Mem) (addr : ℕ) (len : ℤ) : BitVec 16 :=
  inCksumOfWidth abi.order (8 * abi.longBytes) m addr len

/-- The 16-bit words of a region, an odd last byte being padded with a zero byte. -/
def regionWords (o : ByteOrder) : List Byte → List ℕ
  | a :: b :: rest => o.value [a, b] :: regionWords o rest
  | [a] => [o.value [a, 0]]
  | [] => []

theorem regionWords_append (o : ByteOrder) (xs ys : List Byte) (h : xs.length % 2 = 0) :
    regionWords o (xs ++ ys) = regionWords o xs ++ regionWords o ys := by
  induction xs using regionWords.induct with
  | case1 a b rest ih =>
    have hrest : rest.length % 2 = 0 := by
      simp only [List.length_cons] at h
      omega
    simp [regionWords, ih hrest]
  | case2 a => simp at h
  | case3 => simp [regionWords]

theorem length_regionWords (o : ByteOrder) (bs : List Byte) :
    (regionWords o bs).length = (bs.length + 1) / 2 := by
  induction bs using regionWords.induct with
  | case1 a b rest ih =>
    simp only [regionWords, List.length_cons, ih]
    omega
  | case2 a => simp [regionWords]
  | case3 => simp [regionWords]

theorem regionWords_lt (o : ByteOrder) (bs : List Byte) : ∀ x ∈ regionWords o bs, x < 65536 := by
  induction bs using regionWords.induct with
  | case1 a b rest ih =>
    intro x hx
    rcases List.mem_cons.mp hx with hx | hx
    · rw [hx]
      simpa using o.value_lt [a, b]
    · exact ih x hx
  | case2 a =>
    intro x hx
    rw [List.mem_singleton.mp hx]
    simpa using o.value_lt [a, 0]
  | case3 =>
    intro x hx
    simp [regionWords] at hx

theorem sum_regionWords_le (o : ByteOrder) (bs : List Byte) :
    (regionWords o bs).sum ≤ (bs.length + 1) / 2 * 65535 := by
  have h := List.sum_le_card_nsmul (regionWords o bs) 65535
    (fun x hx => Nat.le_of_lt_succ (regionWords_lt o bs x hx))
  rwa [length_regionWords, nsmul_eq_mul, Nat.cast_id] at h

/-- The largest IP datagram cannot push the sum to the sign bit of an `int`. -/
theorem sum_regionWords_lt (o : ByteOrder) (bs : List Byte) (h : bs.length ≤ 65535) :
    (regionWords o bs).sum < 2 ^ 31 := by
  have hle := sum_regionWords_le o bs
  omega

/-- The loop adds up the words of the region, modulo the accumulator width. -/
theorem sumLoop_eq (o : ByteOrder) (bits : ℕ) (m : Mem) (w n : ℕ) (sum : BitVec bits) :
    sumLoop o bits m w n sum = sum + BitVec.ofNat bits (regionWords o (m.load w n)).sum := by
  induction w, n, sum using sumLoop.induct o bits m with
  | case1 w n sum ih =>
    rw [sumLoop, ih, BitVec.add_assoc, ← BitVec.ofNat_add]
    rfl
  | case2 w sum => simp [sumLoop, Mem.load, regionWords]
  | case3 w sum => simp [sumLoop, Mem.load, regionWords]

theorem saddOverflow_eq_false_iff {w : ℕ} {x y : BitVec w} :
    x.saddOverflow y = false ↔
      -2 ^ (w - 1) ≤ x.toInt + y.toInt ∧ x.toInt + y.toInt < 2 ^ (w - 1) := by
  rw [BitVec.saddOverflow, Bool.or_eq_false_iff, decide_eq_false_iff_not, decide_eq_false_iff_not]
  omega

theorem toInt_add_of_fits {w : ℕ} {x y : BitVec w} (h : x.saddOverflow y = false) :
    (x + y).toInt = x.toInt + y.toInt :=
  BitVec.toInt_add_of_not_saddOverflow (by simp [h])

theorem toInt_sshiftRight_sixteen {w : ℕ} (x : BitVec w) :
    (x.sshiftRight 16).toInt = x.toInt / 65536 := by
  rw [BitVec.toInt_sshiftRight, Int.shiftRight_eq_div_pow]
  rfl

section Folds

variable {bits : ℕ} (hbits : 32 ≤ bits) (v : BitVec bits)
include hbits

theorem toInt_and_low : (v &&& 0xffff).toInt = (v.toNat % 65536 : ℕ) := by
  have hpow : 2 ^ 32 ≤ 2 ^ bits := Nat.pow_le_pow_right (by omega) hbits
  have hmask : (v &&& 0xffff).toNat = v.toNat % 65536 := by
    rw [BitVec.toNat_and, BitVec.ofNat_eq_ofNat, BitVec.toNat_ofNat,
      Nat.mod_eq_of_lt (show 0xffff < 2 ^ bits by omega)]
    exact Nat.and_two_pow_sub_one_eq_mod v.toNat 16
  rw [BitVec.toInt_eq_toNat_of_lt (by omega), hmask]

/-- The sign-extended high part stays far from the ends of the accumulator. -/
theorem toInt_high_bounds : -2 ^ (bits - 1) ≤ 32768 * (v.toInt / 65536) ∧
    32768 * (v.toInt / 65536) + 32768 ≤ 2 ^ (bits - 1) ∧ (2 : ℤ) ^ 31 ≤ 2 ^ (bits - 1) := by
  have hlow := BitVec.le_two_mul_toInt (x := v)
  have hhigh := BitVec.two_mul_toInt_lt (x := v)
  have hpow : (2 : ℤ) ^ bits = 2 * 2 ^ (bits - 1) := by
    rw [← pow_succ', Nat.sub_add_cancel (by omega)]
  have hbig : (2 : ℤ) ^ 31 ≤ 2 ^ (bits - 1) := by
    exact_mod_cast Nat.pow_le_pow_right (n := 2) (by omega) (show 31 ≤ bits - 1 by omega)
  omega

theorem saddOverflow_high_low : (v.sshiftRight 16).saddOverflow (v &&& 0xffff) = false := by
  have h := toInt_high_bounds hbits v
  rw [saddOverflow_eq_false_iff, toInt_sshiftRight_sixteen, toInt_and_low hbits]
  omega

theorem toInt_high_add_low : (v.sshiftRight 16 + (v &&& 0xffff)).toInt =
    v.toInt / 65536 + (v.toNat % 65536 : ℕ) := by
  rw [toInt_add_of_fits (saddOverflow_high_low hbits v), toInt_sshiftRight_sixteen,
    toInt_and_low hbits]

theorem saddOverflow_carry {t : BitVec bits} (ht : t = v.sshiftRight 16 + (v &&& 0xffff)) :
    t.saddOverflow (t.sshiftRight 16) = false := by
  have h := toInt_high_bounds hbits v
  rw [saddOverflow_eq_false_iff, toInt_sshiftRight_sixteen, ht, toInt_high_add_low hbits]
  omega

/-- The two folds over the integers: neither addition overflows at any sum. -/
theorem toNat_foldSum_eq {t : ℤ} (ht : t = v.toInt / 65536 + (v.toNat % 65536 : ℕ)) :
    ((foldSum v).toNat : ℤ) = 65535 - (t + t / 65536) % 65536 := by
  have hpow : (2 : ℤ) ^ 32 * 2 ^ (bits - 32) = 2 ^ bits := by
    rw [← pow_add, Nat.add_sub_cancel' hbits]
  set s := v.sshiftRight 16 + (v &&& 0xffff) with hs
  have hsInt : s.toInt = t := by rw [hs, ht, toInt_high_add_low hbits]
  have hu : (s + s.sshiftRight 16).toInt = t + t / 65536 := by
    rw [toInt_add_of_fits (saddOverflow_carry hbits v hs), toInt_sshiftRight_sixteen, hsInt]
  change (((~~~(s + s.sshiftRight 16)).setWidth 16).toNat : ℤ) = _
  rw [BitVec.setWidth_not (by omega), BitVec.toNat_not, BitVec.toNat_setWidth]
  have hmod : (((s + s.sshiftRight 16).toNat % 65536 : ℕ) : ℤ) = (t + t / 65536) % 65536 := by
    rw [← hu, BitVec.toInt_eq_toNat_cond]
    split
    · omega
    · push_cast
      omega
  omega

end Folds

/-- Below the sign bit the arithmetic shifts are divisions, and the two folds reach
the one's-complement residue. -/
theorem toNat_foldSum {bits n : ℕ} (hbits : 32 ≤ bits) (hn : n < 2 ^ 31) :
    (foldSum (BitVec.ofNat bits n)).toNat = 65535 - canon 65536 n := by
  have hpow : 2 ^ 32 ≤ 2 ^ bits := Nat.pow_le_pow_right (by omega) hbits
  have hnat : (BitVec.ofNat bits n).toNat = n := by
    rw [BitVec.toNat_ofNat, Nat.mod_eq_of_lt (by omega)]
  have hint : (BitVec.ofNat bits n).toInt = n := by
    rw [BitVec.toInt_eq_toNat_of_lt (by omega), hnat]
  have h := toNat_foldSum_eq hbits (BitVec.ofNat bits n) (t := fold 65536 n)
    (by rw [hint, hnat, fold]; push_cast; rfl)
  -- the second step adds the carry without removing it: truncation to 16 bits does
  have hlow : (fold 65536 n + fold 65536 n / 65536) % 65536 = canon 65536 n := by
    have h := fold_fold (B := 65536) (by omega) (n := n) (by omega)
    have hlt := canon_lt (B := 65536) (by omega) n
    rw [← h] at hlt ⊢
    have hsmall : fold 65536 n < 2 ^ 17 := by rw [fold]; omega
    generalize fold 65536 n = f at hlt hsmall ⊢
    rw [fold] at hlt ⊢
    omega
  omega

/-- What every copy computes on a region no longer than an IP datagram. -/
theorem toNat_inCksumOfWidth (o : ByteOrder) {bits : ℕ} (hbits : 32 ≤ bits) (m : Mem) (addr : ℕ)
    {n : ℕ} (hn : n ≤ 65535) :
    (inCksumOfWidth o bits m addr n).toNat =
      65535 - onesSum 65536 (regionWords o (m.load addr n)) := by
  rw [inCksumOfWidth, Int.toNat_natCast, sumLoop_eq, BitVec.ofNat_eq_ofNat, BitVec.zero_add,
    toNat_foldSum hbits (sum_regionWords_lt o _ (by simpa using hn)),
    onesSum_eq (by omega) (regionWords_lt o _)]

theorem inCksumOfWidth_congr (o : ByteOrder) {bits : ℕ} {m m' : Mem} {addr addr' n : ℕ}
    (h : m.load addr n = m'.load addr' n) :
    inCksumOfWidth o bits m addr n = inCksumOfWidth o bits m' addr' n := by
  simp only [inCksumOfWidth, Int.toNat_natCast, sumLoop_eq, h]

theorem sum_regionWords_split (o : ByteOrder) (m : Mem) (addr : ℕ) {c n : ℕ} (hc : c % 2 = 0)
    (hcn : c + 2 ≤ n) :
    (regionWords o (m.load addr n)).sum = (regionWords o (m.load addr c)).sum +
      m.loadInt o (addr + c) 2 + (regionWords o (m.load (addr + c + 2) (n - c - 2))).sum := by
  have hn : n = c + (2 + (n - c - 2)) := by omega
  have hsplit : m.load addr n =
      m.load addr c ++ (m.load (addr + c) 2 ++ m.load (addr + c + 2) (n - c - 2)) := by
    rw [← Mem.load_add, ← Mem.load_add, ← hn]
  rw [hsplit, regionWords_append _ _ _ (by simpa using hc), regionWords_append _ _ _ (by simp)]
  simp [Mem.load, Mem.loadInt, regionWords, Nat.add_assoc]

/-- Exchanging the bytes of every word multiplies the sum by `256` modulo `65535`. -/
theorem sum_regionWords_modEq (bs : List Byte) :
    256 * (regionWords .little bs).sum ≡ (regionWords .big bs).sum [MOD 65535] := by
  have word : ∀ a b : Byte, 256 * ByteOrder.little.value [a, b] ≡ ByteOrder.big.value [a, b] [MOD 65535] := by
    intro a b
    simp only [ByteOrder.value, ByteOrder.littleValue, List.reverse_cons, List.reverse_nil,
      List.nil_append, List.cons_append, Nat.ModEq]
    omega
  induction bs using regionWords.induct with
  | case1 a b rest ih =>
    simp only [regionWords, List.sum_cons, Nat.mul_add]
    exact (word a b).add ih
  | case2 a => simpa [regionWords] using word a 0
  | case3 => rfl

theorem sum_regionWords_eq_zero_iff (o : ByteOrder) (bs : List Byte) :
    (regionWords o bs).sum = 0 ↔ ∀ b ∈ bs, b = 0 := by
  have word : ∀ a b : Byte, o.value [a, b] = 0 ↔ a = 0 ∧ b = 0 := by
    intro a b
    have ha : a = 0 ↔ a.toNat = 0 := BitVec.toNat_inj.symm
    have hb : b = 0 ↔ b.toNat = 0 := BitVec.toNat_inj.symm
    rw [ha, hb]
    cases o with
    | little =>
      simp only [ByteOrder.value, ByteOrder.littleValue]
      omega
    | big =>
      simp only [ByteOrder.value, ByteOrder.littleValue, List.reverse_cons, List.reverse_nil,
        List.nil_append, List.cons_append]
      omega
  induction bs using regionWords.induct with
  | case1 a b rest ih => simp [regionWords, word, ih, and_assoc]
  | case2 a => simp [regionWords, word]
  | case3 => simp [regionWords]

/-- The receiver's check of a region, on a host of either byte order and wherever the
bytes were put in its memory: the words add up to all ones, and `in_cksum` run over
them returns zero. -/
structure Verifies (bits : ℕ) (bs : List Byte) : Prop where
  onesSum_eq : ∀ o, onesSum 65536 (regionWords o bs) = 0xffff
  inCksum_eq : ∀ o m addr, m.load addr bs.length = bs → inCksumOfWidth o bits m addr bs.length = 0

theorem onesSum_regionWords_swap {o o' : ByteOrder} {bs : List Byte}
    (h : onesSum 65536 (regionWords o bs) = 0xffff) :
    onesSum 65536 (regionWords o' bs) = 0xffff := by
  have allOnes : ∀ o, onesSum 65536 (regionWords o bs) = 0xffff ↔
      (regionWords o bs).sum ≡ 0 [MOD 65535] ∧ ¬ ∀ b ∈ bs, b = 0 := by
    intro o
    have hiff := canon_eq_iff (B := 65536) (m := (regionWords o bs).sum) (n := 65535)
    rw [canon_of_lt (n := 65535) (by omega) (by omega), sum_regionWords_eq_zero_iff] at hiff
    rw [onesSum_eq (by omega) (regionWords_lt o _), hiff]
    simp [Nat.ModEq]
  rw [allOnes] at h ⊢
  refine ⟨?_, h.2⟩
  have hswap := sum_regionWords_modEq bs
  cases o <;> cases o' <;> simp only [Nat.ModEq] at * <;> omega

theorem verifies_of_onesSum {o : ByteOrder} {bits : ℕ} (hbits : 32 ≤ bits) {bs : List Byte}
    (hlen : bs.length ≤ 65535) (h : onesSum 65536 (regionWords o bs) = 0xffff) :
    Verifies bits bs := by
  refine ⟨fun o' => onesSum_regionWords_swap h, ?_⟩
  intro o' m addr hload
  apply BitVec.eq_of_toNat_eq
  rw [toNat_inCksumOfWidth o' hbits m addr hlen, hload, onesSum_regionWords_swap h]
  rfl

/-- Storing the checksum of a region into a zero word of that region makes it verify. -/
theorem verifies_storeInt_inCksum (o : ByteOrder) {bits : ℕ} (hbits : 32 ≤ bits) (m : Mem)
    (addr : ℕ) {c n : ℕ} (hn : n ≤ 65535) (hc : c % 2 = 0) (hcn : c + 2 ≤ n)
    (hzero : m.loadInt o (addr + c) 2 = 0) {check : BitVec 16}
    (hcheck : check = inCksumOfWidth o bits m addr n) :
    Verifies bits ((m.storeInt o (addr + c) 2 check.toNat).load addr n) := by
  set m' := m.storeInt o (addr + c) 2 check.toNat
  have hcheckEq : check.toNat = 65535 - canon 65536 (regionWords o (m.load addr n)).sum := by
    rw [hcheck, toNat_inCksumOfWidth o hbits m addr hn, onesSum_eq (by omega) (regionWords_lt o _)]
  have hword : m'.loadInt o (addr + c) 2 = check.toNat := by
    rw [Mem.loadInt, Mem.load_storeInt, ByteOrder.value_bytes]
    omega
  have hsum : (regionWords o (m'.load addr n)).sum =
      (regionWords o (m.load addr n)).sum + check.toNat := by
    rw [sum_regionWords_split o m' addr hc hcn, sum_regionWords_split o m addr hc hcn, hword, hzero,
      m.load_storeInt_disjoint o _ (by omega), m.load_storeInt_disjoint o _ (by omega)]
    omega
  apply verifies_of_onesSum hbits (by simpa using hn) (o := o)
  rw [onesSum_eq (by omega) (regionWords_lt o _), hsum, hcheckEq]
  exact canon_add_complement (by omega) _

end WorkCode.InternetChecksum
