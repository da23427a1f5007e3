import Mathlib.Data.List.Chain
import Mathlib.Data.List.Perm.Subperm
import Mathlib.Data.Nat.ModEq

/-!
# Round robin

Numbers below `n` that follow each other cyclically. As many of them as there are numbers
go through all of them once, wherever they begin.
-/

namespace WorkCode.RoundRobin

/-- `b` comes after `a` in the cycle of the numbers below `n`. -/
def Next (n a b : ℕ) : Prop := b = (a + 1) % n

instance (n : ℕ) : DecidableRel (Next n) := fun a b => inferInstanceAs (Decidable (b = (a + 1) % n))

variable {n : ℕ} {l : List ℕ}

theorem getElem_of_isChain (hchain : l.IsChain (Next n)) (hlt : ∀ x ∈ l, x < n) {k : ℕ}
    (hk : k < l.length) : l[k] = (l[0] + k) % n := by
  induction k with
  | zero => exact (Nat.mod_eq_of_lt (hlt _ (List.getElem_mem _))).symm
  | succ k ih =>
    have hnext : l[k + 1] = (l[k] + 1) % n := List.isChain_iff_getElem.mp hchain k hk
    rw [hnext, ih (by omega), Nat.mod_add_mod, Nat.add_assoc]

theorem nodup_of_isChain (hchain : l.IsChain (Next n)) (hlt : ∀ x ∈ l, x < n) (hlen : l.length ≤ n) :
    l.Nodup := by
  apply List.pairwise_iff_getElem.mpr
  intro j k hj hk hjk heq
  have hpos : 0 < l.length := by omega
  have hmod : Nat.ModEq n (l[0] + j) (l[0] + k) := by
    rw [Nat.ModEq, ← getElem_of_isChain hchain hlt hj, ← getElem_of_isChain hchain hlt hk, heq]
  have hsame : j = k := (Nat.ModEq.add_left_cancel' _ hmod).eq_of_lt_of_lt (by omega) (by omega)
  omega

/-- A whole round meets every number once. -/
theorem perm_range_of_isChain (hchain : l.IsChain (Next n)) (hlt : ∀ x ∈ l, x < n)
    (hlen : l.length = n) : l.Perm (List.range n) := by
  have hsub : l ⊆ List.range n := by
    intro x hx
    exact List.mem_range.mpr (hlt x hx)
  apply (List.subperm_of_subset (nodup_of_isChain hchain hlt hlen.le) hsub).perm_of_length_le
  rw [List.length_range, hlen]

/-- Any `n` consecutive entries meet every number once. -/
theorem window_perm_range (hchain : l.IsChain (Next n)) (hlt : ∀ x ∈ l, x < n) {j : ℕ}
    (hj : j + n ≤ l.length) : ((l.drop j).take n).Perm (List.range n) := by
  apply perm_range_of_isChain ((hchain.drop j).take n)
  · intro x hx
    exact hlt x (List.mem_of_mem_drop (List.mem_of_mem_take hx))
  · rw [List.length_take, List.length_drop]
    omega

end WorkCode.RoundRobin
