import WorkCode.RoundRobin
import Mathlib.Data.Int.Notation

/-!
# Channel hopping

The loop of `channel_hopping_ioctl.c` tunes to one channel after the other. Its counter is
an `int` that is never set and only ever incremented; the modulus is a `size_t`, so that a
negative counter is taken modulo `2 ^ 64` first, which eleven does not divide.
-/

namespace WorkCode.ChannelHopping

open RoundRobin

def chans : List ℤ := [2412, 2417, 2422, 2427, 2432, 2437, 2442, 2447, 2452, 2457, 2462]

/-- `sizeof(chans) >> 2`, of four bytes each. -/
def numChans : BitVec 64 := BitVec.ofNat 64 (4 * chans.length) >>> 2

/-- `i % (sizeof(chans) >> 2)`, the index of `chans` in an iteration. -/
def index (i : BitVec 32) : ℕ := (i.signExtend 64 % numChans).toNat

def indices : BitVec 32 → ℕ → List ℕ
  | _, 0 => []
  | i, n + 1 => index i :: indices (i + 1) n

def freq (index : ℕ) : ℤ := chans.getD index 0

/-- Every index lies within `chans`, consecutive iterations use cyclically consecutive
entries, and any eleven of them tune to each channel once. -/
structure Fair (l : List ℕ) : Prop where
  within : ∀ index ∈ l, index < chans.length
  consecutive : l.IsChain (Next chans.length)
  round : ∀ j, j + chans.length ≤ l.length → (((l.drop j).take chans.length).map freq).Perm chans

/-- The run stays on one side of zero and does not wrap. -/
def StaysInRange (i : BitVec 32) (n : ℕ) : Prop :=
  (0 ≤ i.toInt → i.toInt + n ≤ 2 ^ 31) ∧ (i.toInt < 0 → i.toInt + n ≤ 0)

@[simp] theorem length_indices (i : BitVec 32) (n : ℕ) : (indices i n).length = n := by
  induction n generalizing i with
  | zero => rfl
  | succ n ih => rw [indices, List.length_cons, ih]

/-- A negative counter is converted to its value plus `2 ^ 64`. -/
theorem index_eq (i : BitVec 32) :
    index i = if i.toInt < 0 then (i.toInt + 2 ^ 64).toNat % 11 else i.toInt.toNat % 11 := by
  have hlt := i.isLt
  have hbound : numChans.toNat = 11 := by decide
  rw [index, BitVec.toNat_umod, hbound, BitVec.toNat_signExtend, BitVec.toNat_setWidth,
    BitVec.msb_eq_toInt, BitVec.toInt_eq_toNat_cond]
  simp only [decide_eq_true_eq]
  split_ifs
  · omega
  · omega
  · omega
  · omega

theorem index_lt (i : BitVec 32) : index i < chans.length := by
  change index i < 11
  rw [index_eq]
  split
  · omega
  · omega

theorem toInt_add_one (i : BitVec 32) :
    (i + 1).toInt = if i.toInt = 2 ^ 31 - 1 then -2 ^ 31 else i.toInt + 1 := by
  have hlower := BitVec.le_toInt i
  have hupper := BitVec.toInt_lt (x := i)
  rw [BitVec.toInt_add]
  change (i.toInt + 1).bmod (2 ^ 32) = _
  rw [Int.bmod_def]
  split_ifs
  · omega
  · omega
  · omega
  · omega

theorem next_index_iff (i : BitVec 32) :
    Next chans.length (index i) (index (i + 1)) ↔ i.toInt ≠ -1 ∧ i.toInt ≠ 2 ^ 31 - 1 := by
  have hlower := BitVec.le_toInt i
  have hupper := BitVec.toInt_lt (x := i)
  change index (i + 1) = (index i + 1) % 11 ↔ _
  rw [index_eq (i + 1), index_eq i, toInt_add_one]
  by_cases hwrap : i.toInt = 2 ^ 31 - 1
  · rw [if_pos hwrap, if_pos (by omega), if_neg (by omega)]
    omega
  · rw [if_neg hwrap]
    by_cases hneg : i.toInt < 0
    · by_cases hzero : i.toInt = -1
      · rw [if_neg (by omega), if_pos hneg]
        omega
      · rw [if_pos (by omega), if_pos hneg]
        omega
    · rw [if_neg (by omega), if_neg hneg]
      omega

theorem isChain_indices_iff (i : BitVec 32) (n : ℕ) :
    (indices i n).IsChain (Next chans.length) ↔ StaysInRange i n := by
  induction n generalizing i with
  | zero =>
    have hupper := BitVec.toInt_lt (x := i)
    refine iff_of_true .nil ⟨?_, ?_⟩
    · omega
    · omega
  | succ n ih =>
    have hlower := BitVec.le_toInt i
    have hupper := BitVec.toInt_lt (x := i)
    cases n with
    | zero =>
      refine iff_of_true (.singleton _) ⟨?_, ?_⟩
      · omega
      · omega
    | succ n =>
      have hcons : (indices i (n + 2)).IsChain (Next chans.length) ↔
          Next chans.length (index i) (index (i + 1)) ∧
            (indices (i + 1) (n + 1)).IsChain (Next chans.length) := List.isChain_cons_cons
      rw [hcons, next_index_iff, ih, StaysInRange, StaysInRange, toInt_add_one]
      push_cast
      split_ifs
      · omega
      · omega

/-- Hopping is a fair round robin exactly in runs in which the counter neither passes from
-1 to 0 nor wraps. -/
theorem fair_iff (i : BitVec 32) (n : ℕ) : Fair (indices i n) ↔ StaysInRange i n := by
  have hwithin : ∀ (n : ℕ) (i : BitVec 32), ∀ index ∈ indices i n, index < chans.length := by
    intro n
    induction n with
    | zero => simp [indices]
    | succ n ih =>
      intro i
      exact List.forall_mem_cons.mpr ⟨index_lt i, ih (i + 1)⟩
  rw [← isChain_indices_iff]
  constructor
  · intro h
    exact h.consecutive
  · intro h
    refine ⟨hwithin n i, h, ?_⟩
    intro j hj
    have hround := window_perm_range h (hwithin n i) hj
    have hfreq : (List.range chans.length).map freq = chans := by decide
    rw [← hfreq]
    exact hround.map freq

/-- From -1 the channel 5 is followed by the channel 1. -/
theorem fromMinusOne_not_fair : ¬ ∀ (i : BitVec 32) (n : ℕ), Fair (indices i n) := by
  intro h
  have hchain := (h (-1) 2).consecutive
  revert hchain
  decide

end WorkCode.ChannelHopping
