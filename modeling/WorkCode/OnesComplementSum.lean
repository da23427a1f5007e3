import Mathlib.Data.Nat.ModEq
import Mathlib.Algebra.BigOperators.Group.List.Basic
import Mathlib.Tactic.Ring

/-!
# End-around-carry arithmetic

One's-complement addition in radix `B` adds two digits and adds the carry back in
at the low end. The result is a residue modulo `B - 1` with two zeros: `0` itself,
reached only by adding zeros, and `B - 1`, which stands for every other multiple.
`canon` is that residue as a function of the plain integer sum, and every way of
folding carries, early or late, computes it.
-/

namespace WorkCode.OnesComplement

/-- Add the carry part of `n` to its low digit. -/
def fold (B n : ℕ) : ℕ := n / B + n % B

def addCarry (B a b : ℕ) : ℕ := fold B (a + b)

def onesSum (B : ℕ) (ws : List ℕ) : ℕ := ws.foldl (addCarry B) 0

/-- The residue modulo `B - 1` in `1, …, B - 1`, with zero only for zero. -/
def canon (B n : ℕ) : ℕ := if n = 0 then 0 else (n - 1) % (B - 1) + 1

variable {B : ℕ}

@[simp] theorem canon_zero : canon B 0 = 0 := if_pos rfl

theorem canon_of_pos {n : ℕ} (hn : 0 < n) : canon B n = (n - 1) % (B - 1) + 1 :=
  if_neg (by omega)

theorem canon_eq_zero {n : ℕ} : canon B n = 0 ↔ n = 0 := by
  by_cases hn : n = 0
  · simp [hn]
  · simp [canon, hn]

section Radix

variable (hB : 1 < B)
include hB

theorem canon_lt (n : ℕ) : canon B n < B := by
  by_cases hn : n = 0
  · rw [hn, canon_zero]
    omega
  · have hmod : (n - 1) % (B - 1) < B - 1 := Nat.mod_lt _ (by omega)
    rw [canon_of_pos (by omega)]
    omega

theorem canon_of_lt {n : ℕ} (hn : n < B) : canon B n = n := by
  by_cases hz : n = 0
  · rw [hz, canon_zero]
  · rw [canon_of_pos (by omega), Nat.mod_eq_of_lt (by omega)]
    omega

omit hB in
theorem canon_modEq (n : ℕ) : canon B n ≡ n [MOD B - 1] := by
  by_cases hn : n = 0
  · rw [hn, canon_zero]
  · rw [canon_of_pos (by omega)]
    have h : (n - 1) % (B - 1) + 1 ≡ (n - 1) + 1 [MOD B - 1] :=
      (Nat.mod_modEq (n - 1) (B - 1)).add_right 1
    rwa [Nat.sub_add_cancel (by omega)] at h

omit hB in
/-- Two sums have the same residue exactly when they are congruent and agree on
being zero. -/
theorem canon_eq_iff {m n : ℕ} :
    canon B m = canon B n ↔ m ≡ n [MOD B - 1] ∧ (m = 0 ↔ n = 0) := by
  constructor
  · intro h
    refine ⟨(canon_modEq m).symm.trans (h ▸ canon_modEq n), ?_⟩
    rw [← canon_eq_zero (B := B), h, canon_eq_zero]
  · rintro ⟨hmod, hzero⟩
    by_cases hn : n = 0
    · rw [hzero.mpr hn, hn]
    · have hm : m ≠ 0 := fun h => hn (hzero.mp h)
      have hpred : m - 1 ≡ n - 1 [MOD B - 1] := by
        apply Nat.ModEq.add_right_cancel' 1
        rwa [Nat.sub_add_cancel (by omega), Nat.sub_add_cancel (by omega)]
      rw [canon_of_pos (by omega), canon_of_pos (by omega), hpred]

theorem fold_modEq (n : ℕ) : fold B n ≡ n [MOD B - 1] := by
  have hone : B ≡ 1 [MOD B - 1] := by
    have h : 1 + (B - 1) ≡ 1 [MOD B - 1] := by simp [Nat.ModEq]
    rwa [Nat.add_sub_cancel' hB.le] at h
  have h : n / B * B + n % B ≡ n / B * 1 + n % B [MOD B - 1] :=
    (hone.mul_left (n / B)).add_right (n % B)
  rw [Nat.div_add_mod', mul_one] at h
  exact h.symm

omit hB in
theorem fold_eq_zero {n : ℕ} : fold B n = 0 ↔ n = 0 := by
  constructor
  · intro hz
    obtain ⟨hdiv, hmod⟩ := Nat.add_eq_zero_iff.mp hz
    have h := Nat.div_add_mod n B
    rw [hdiv, hmod] at h
    omega
  · rintro rfl
    simp [fold]

theorem canon_fold (n : ℕ) : canon B (fold B n) = canon B n :=
  canon_eq_iff.mpr ⟨fold_modEq hB n, fold_eq_zero⟩

/-- Two folds bring every two-digit number down to its residue. -/
theorem fold_fold {n : ℕ} (hn : n < B * B) : fold B (fold B n) = canon B n := by
  have hdiv : n / B < B := Nat.div_lt_of_lt_mul hn
  have hmod : n % B < B := Nat.mod_lt _ (by omega)
  have hle : fold B n ≤ (B - 1) + (B - 1) := by rw [fold]; omega
  have hlt : fold B (fold B n) < B := by
    by_cases hsmall : fold B n < B
    · rw [fold, Nat.div_eq_of_lt hsmall, Nat.mod_eq_of_lt hsmall]
      omega
    · have hone : fold B n / B = 1 := Nat.div_eq_of_lt_le (by omega) (by omega)
      have hrest : fold B n % B = fold B n - B := by
        have h := Nat.div_add_mod (fold B n) B
        rw [hone] at h
        omega
      rw [fold, hone, hrest]
      omega
  rw [← canon_of_lt hB hlt, canon_fold hB, canon_fold hB]

omit hB in
theorem canon_canon_add (a b : ℕ) : canon B (canon B a + b) = canon B (a + b) := by
  apply canon_eq_iff.mpr
  refine ⟨(canon_modEq a).add_right b, ?_⟩
  have ha := canon_eq_zero (B := B) (n := a)
  omega

theorem addCarry_eq {a b : ℕ} (ha : a < B) (hb : b < B) : addCarry B a b = canon B (a + b) := by
  have hlt : addCarry B a b < B := by
    by_cases hsmall : a + b < B
    · rw [addCarry, fold, Nat.div_eq_of_lt hsmall, Nat.mod_eq_of_lt hsmall]
      omega
    · have hone : (a + b) / B = 1 := Nat.div_eq_of_lt_le (by omega) (by omega)
      have h := Nat.div_add_mod (a + b) B
      rw [hone] at h
      rw [addCarry, fold, hone]
      omega
  rw [← canon_of_lt hB hlt, addCarry, canon_fold hB]

theorem foldl_addCarry {ws : List ℕ} (hws : ∀ x ∈ ws, x < B) {s : ℕ} :
    ws.foldl (addCarry B) (canon B s) = canon B (s + ws.sum) := by
  induction ws generalizing s with
  | nil => simp
  | cons x ws ih =>
    have hx : x < B := hws x List.mem_cons_self
    have hstep : addCarry B (canon B s) x = canon B (s + x) := by
      rw [addCarry_eq hB (canon_lt hB s) hx, canon_canon_add]
    rw [List.foldl_cons, hstep, ih (fun y hy => hws y (List.mem_cons_of_mem _ hy)),
      List.sum_cons, Nat.add_assoc]

/-- Carrying at every addition gives the residue of the plain sum. -/
theorem onesSum_eq {ws : List ℕ} (hws : ∀ x ∈ ws, x < B) : onesSum B ws = canon B ws.sum := by
  have h := foldl_addCarry hB hws (s := 0)
  rwa [canon_zero, Nat.zero_add] at h

/-- A sum and the complement of its residue add up to all ones. -/
theorem canon_add_complement (s : ℕ) : canon B (s + (B - 1 - canon B s)) = B - 1 := by
  have hlt := canon_lt hB s
  have hsum : canon B s + (B - 1 - canon B s) = B - 1 := by omega
  rw [← canon_canon_add, hsum, canon_of_lt hB (by omega)]

omit hB in
/-- Two digits that stand for the same residue: the two zeros. -/
theorem modEq_of_ne {a b : ℕ} (ha : a < B) (hb : b < B) (hne : a ≠ b) :
    a ≡ b [MOD B - 1] ↔ a = 0 ∧ b = B - 1 ∨ a = B - 1 ∧ b = 0 := by
  constructor
  · intro h
    rcases Nat.lt_or_gt_of_ne hne with hlt | hlt
    · have hle := Nat.le_of_dvd (by omega) ((Nat.modEq_iff_dvd' hlt.le).mp h)
      omega
    · have hle := Nat.le_of_dvd (by omega) ((Nat.modEq_iff_dvd' hlt.le).mp h.symm)
      omega
  · rintro (⟨rfl, rfl⟩ | ⟨rfl, rfl⟩)
    · simp [Nat.ModEq]
    · simp [Nat.ModEq]

omit hB in
/-- Exchanging one digit for another keeps the residue exactly when the digits are the
two zeros and the rest of the sum is positive. -/
theorem canon_add_eq_iff {a b r : ℕ} (ha : a < B) (hb : b < B) (hne : a ≠ b) :
    canon B (a + r) = canon B (b + r) ↔
      (a = 0 ∧ b = B - 1 ∨ a = B - 1 ∧ b = 0) ∧ r ≠ 0 := by
  have hzero : (a + r = 0 ↔ b + r = 0) ↔ r ≠ 0 ∨ a ≠ 0 ∧ b ≠ 0 := by omega
  rw [canon_eq_iff, hzero, ← modEq_of_ne ha hb hne]
  constructor
  · intro h
    obtain ⟨hmod, hpos⟩ := h
    have hab : a ≡ b [MOD B - 1] := Nat.ModEq.add_right_cancel' r hmod
    have hdigits := (modEq_of_ne ha hb hne).mp hab
    exact ⟨hab, by omega⟩
  · intro h
    obtain ⟨hmod, hr⟩ := h
    exact ⟨hmod.add_right r, Or.inl hr⟩

/-- Two lists of digits that differ in place `j` only. -/
theorem onesSum_eq_iff_of_differ {ws ws' : List ℕ} (hws : ∀ x ∈ ws, x < B) (hws' : ∀ x ∈ ws', x < B)
    {j : ℕ} (hj : j < ws.length) (hj' : j < ws'.length) (hne : ws[j] ≠ ws'[j])
    (hrest : ws.eraseIdx j = ws'.eraseIdx j) :
    onesSum B ws = onesSum B ws' ↔
      (ws[j] = 0 ∧ ws'[j] = B - 1 ∨ ws[j] = B - 1 ∧ ws'[j] = 0) ∧ ∃ x ∈ ws.eraseIdx j, x ≠ 0 := by
  have hothers : (ws.eraseIdx j).sum ≠ 0 ↔ ∃ x ∈ ws.eraseIdx j, x ≠ 0 := by
    simp [List.sum_eq_zero_iff_forall_eq_nat]
  have split : ∀ {l : List ℕ} (h : j < l.length), l[j] + (l.eraseIdx j).sum = l.sum :=
    fun h => List.add_sum_eraseIdx h (fun x _ => AddCommute.all _ x)
  rw [onesSum_eq hB hws, onesSum_eq hB hws', ← split hj, ← split hj', ← hrest, ← hothers]
  apply canon_add_eq_iff (hws _ (List.getElem_mem hj)) (hws' _ (List.getElem_mem hj')) hne

end Radix

end WorkCode.OnesComplement
