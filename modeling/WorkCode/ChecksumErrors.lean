import WorkCode.InternetChecksum

/-!
# The changes of one word that `in_cksum` misses

A sum of one's-complement digits loses no more than the difference between the two
zeros. A buffer with one word changed keeps its checksum exactly when the word goes from
`0x0000` to `0xffff` or back, and then only if some other word keeps the sum positive.
-/

namespace WorkCode.InternetChecksum

open OnesComplement

/-- The aligned 16-bit word number `j` of a buffer; a zero byte follows an odd last byte. -/
def word (o : ByteOrder) (bs : List Byte) (j : ℕ) : ℕ :=
  o.value [bs.getD (2 * j) 0, bs.getD (2 * j + 1) 0]

/-- Two buffers of one length that differ, but only in their word number `j`. -/
structure DifferInWord (bs bs' : List Byte) (j : ℕ) : Prop where
  length_eq : bs.length = bs'.length
  agree : ∀ i, i / 2 ≠ j → bs.getD i 0 = bs'.getD i 0
  differ : bs ≠ bs'

/-- One zero of one's-complement arithmetic stands for the other, beside a word that is
not zero. -/
structure Masked (o : ByteOrder) (bs bs' : List Byte) (j : ℕ) : Prop where
  zeros : word o bs j = 0x0000 ∧ word o bs' j = 0xffff ∨ word o bs j = 0xffff ∧ word o bs' j = 0x0000
  other : ∃ i < (bs.length + 1) / 2, i ≠ j ∧ word o bs i ≠ 0

theorem getElem_regionWords (o : ByteOrder) (bs : List Byte) {j : ℕ}
    (hj : j < (regionWords o bs).length) : (regionWords o bs)[j] = word o bs j := by
  induction bs using regionWords.induct generalizing j with
  | case1 a b rest ih =>
    cases j with
    | zero => rfl
    | succ j =>
      have h := ih (j := j) (by simpa [regionWords] using hj)
      rw [word, Nat.mul_add_one, Nat.add_right_comm]
      simpa [regionWords, word] using h
  | case2 a =>
    have hzero : j = 0 := by simpa [regionWords] using hj
    subst hzero
    rfl
  | case3 => simp [regionWords] at hj

theorem value_pair_eq_iff (o : ByteOrder) {a b c d : Byte} :
    o.value [a, b] = o.value [c, d] ↔ a = c ∧ b = d := by
  rw [o.value_eq_iff (by rfl)]
  simp

theorem eq_of_getD_eq {bs bs' : List Byte} (hlen : bs.length = bs'.length)
    (h : ∀ i, bs.getD i 0 = bs'.getD i 0) : bs = bs' := by
  apply List.ext_getElem hlen
  intro i hi hi'
  have hgetD := h i
  rwa [List.getD_eq_getElem _ _ hi, List.getD_eq_getElem _ _ hi'] at hgetD

section Differ

variable {o : ByteOrder} {bs bs' : List Byte} {j : ℕ}

theorem DifferInWord.word_eq (h : DifferInWord bs bs' j) {i : ℕ} (hi : i ≠ j) :
    word o bs i = word o bs' i := by
  rw [word, word, h.agree (2 * i) (by omega), h.agree (2 * i + 1) (by omega)]

theorem DifferInWord.word_ne (h : DifferInWord bs bs' j) : word o bs j ≠ word o bs' j := by
  intro heq
  obtain ⟨hlow, hhigh⟩ := (value_pair_eq_iff o).mp heq
  apply h.differ
  apply eq_of_getD_eq h.length_eq
  intro i
  by_cases hij : i / 2 = j
  · rcases Nat.mod_two_eq_zero_or_one i with hmod | hmod
    · rw [show i = 2 * j by omega]
      exact hlow
    · rw [show i = 2 * j + 1 by omega]
      exact hhigh
  · exact h.agree i hij

theorem DifferInWord.lt (h : DifferInWord bs bs' j) : j < (bs.length + 1) / 2 := by
  by_contra hj
  have hlen := h.length_eq
  apply h.differ
  apply eq_of_getD_eq hlen
  intro i
  by_cases hi : i < bs.length
  · exact h.agree i (by omega)
  · rw [List.getD_eq_default _ _ (by omega), List.getD_eq_default _ _ (by omega)]

theorem DifferInWord.eraseIdx_eq (h : DifferInWord bs bs' j) :
    (regionWords o bs).eraseIdx j = (regionWords o bs').eraseIdx j := by
  have hlen : (regionWords o bs).length = (regionWords o bs').length := by
    rw [length_regionWords, length_regionWords, h.length_eq]
  apply List.ext_getElem
  · rw [List.length_eraseIdx, List.length_eraseIdx, hlen]
  · intro i hi hi'
    rw [List.getElem_eraseIdx, List.getElem_eraseIdx]
    split
    · rw [getElem_regionWords, getElem_regionWords, h.word_eq (by omega)]
    · rw [getElem_regionWords, getElem_regionWords, h.word_eq (by omega)]

theorem exists_mem_eraseIdx_iff : (∃ x ∈ (regionWords o bs).eraseIdx j, x ≠ 0) ↔
    ∃ i < (bs.length + 1) / 2, i ≠ j ∧ word o bs i ≠ 0 := by
  have hlen := length_regionWords o bs
  constructor
  · intro h
    obtain ⟨x, hx, hne⟩ := h
    obtain ⟨i, hi, hij, rfl⟩ := List.mem_eraseIdx_iff_getElem.mp hx
    rw [getElem_regionWords] at hne
    exact ⟨i, by omega, hij, hne⟩
  · intro h
    obtain ⟨i, hi, hij, hne⟩ := h
    rw [← getElem_regionWords o bs (by omega)] at hne
    exact ⟨_, List.mem_eraseIdx_iff_getElem.mpr ⟨i, by omega, hij, rfl⟩, hne⟩

theorem DifferInWord.onesSum_iff (h : DifferInWord bs bs' j) :
    onesSum 65536 (regionWords o bs) = onesSum 65536 (regionWords o bs') ↔ Masked o bs bs' j := by
  have hlt := h.lt
  have hlen := length_regionWords o bs
  have hlen' := length_regionWords o bs'
  rw [← h.length_eq] at hlen'
  rw [onesSum_eq_iff_of_differ (by omega) (regionWords_lt o bs) (regionWords_lt o bs') (j := j)
    (by omega) (by omega) _ h.eraseIdx_eq, getElem_regionWords, getElem_regionWords,
    exists_mem_eraseIdx_iff]
  · exact ⟨fun hmask => ⟨hmask.1, hmask.2⟩, fun hmask => ⟨hmask.zeros, hmask.other⟩⟩
  · rw [getElem_regionWords, getElem_regionWords]
    exact h.word_ne

end Differ

theorem inCksumOfWidth_eq_iff (o : ByteOrder) {bits : ℕ} (hbits : 32 ≤ bits) (m m' : Mem)
    (addr addr' : ℕ) {n j : ℕ} (hn : n ≤ 65535)
    (h : DifferInWord (m.load addr n) (m'.load addr' n) j) :
    inCksumOfWidth o bits m addr n = inCksumOfWidth o bits m' addr' n ↔
      Masked o (m.load addr n) (m'.load addr' n) j := by
  have hle : ∀ bs : List Byte, onesSum 65536 (regionWords o bs) ≤ 65535 := by
    intro bs
    rw [onesSum_eq (by omega) (regionWords_lt o bs)]
    exact Nat.le_of_lt_succ (canon_lt (by omega) _)
  have hsum := hle (m.load addr n)
  have hsum' := hle (m'.load addr' n)
  rw [← BitVec.toNat_inj, toNat_inCksumOfWidth o hbits m addr hn,
    toNat_inCksumOfWidth o hbits m' addr' hn, ← h.onesSum_iff]
  omega

/-- `in_cksum` tells two buffers with one word changed apart unless the change is masked. -/
theorem inCksum_eq_iff_masked (o : ByteOrder) (m m' : Mem) (addr addr' : ℕ) {n j : ℕ}
    (hn : n ≤ 65535) (h : DifferInWord (m.load addr n) (m'.load addr' n) j) :
    (Ping.inCksum o m addr n = Ping.inCksum o m' addr' n ↔
      Masked o (m.load addr n) (m'.load addr' n) j) ∧
    (Inject.inCksum o m addr n = Inject.inCksum o m' addr' n ↔
      Masked o (m.load addr n) (m'.load addr' n) j) := by
  constructor
  · apply inCksumOfWidth_eq_iff o (by omega) m m' addr addr' hn h
  · apply inCksumOfWidth_eq_iff o (by omega) m m' addr addr' hn h

/-- Five bytes whose first word goes from one zero to the other unseen. -/
theorem inCksum_eq_of_masked : ∃ m m' : Mem, m.load 0 5 = [0, 0, 7, 0, 0] ∧
    m'.load 0 5 = [0xff, 0xff, 7, 0, 0] ∧ Ping.inCksum .little m 0 5 = Ping.inCksum .little m' 0 5 := by
  refine ⟨fun i => if i = 2 then 7 else 0, fun i => if i < 2 then 0xff else if i = 2 then 7 else 0,
    rfl, rfl, ?_⟩
  apply (inCksum_eq_iff_masked .little _ _ 0 0 (n := 5) (j := 0) (by omega) _).1.mpr
  · exact ⟨Or.inl ⟨rfl, rfl⟩, 1, by decide, by omega, by decide⟩
  · refine ⟨rfl, ?_, by decide⟩
    intro i hi
    match i with
    | 0 => omega
    | 1 => omega
    | 2 => rfl
    | 3 => rfl
    | 4 => rfl
    | i + 5 => rfl

end WorkCode.InternetChecksum
