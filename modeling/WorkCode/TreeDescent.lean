import Mathlib.Data.List.Basic

/-!
# Descents in labelled trees

A descent goes from a node to a child once for each label of a list. A search that keeps
one candidate for each label is a deterministic descent; the relation between descents
of two step relations is the relation between their single steps.
-/

namespace WorkCode.TreeDescent

variable {α τ : Type*}

/-- Going down from one node to another, one step for each label. -/
inductive Path (step : α → τ → α → Prop) : α → List τ → α → Prop
  | nil {a} : Path step a [] a
  | cons {a b c t ts} (head : step a t b) (tail : Path step b ts c) : Path step a (t :: ts) c

variable {step step' : α → τ → α → Prop} {a b : α} {ts : List τ}

theorem Path.mono (h : ∀ a t b, step a t b → step' a t b) (hpath : Path step a ts b) :
    Path step' a ts b := by
  induction hpath with
  | nil => exact .nil
  | cons head tail ih => exact .cons (h _ _ _ head) ih

/-- Where a node is a child of one node only, two descents to it that take as many steps are the
same. -/
theorem Path.merge {a' : α} (h : ∀ a a' t b, step a t b → step' a' t b → a = a') (hpath : Path step a ts b)
    (hpath' : Path step' a' ts b) : a = a' ∧ Path (fun a t b => step a t b ∧ step' a t b) a ts b := by
  induction hpath generalizing a' with
  | nil =>
    cases hpath'
    exact ⟨rfl, .nil⟩
  | cons head tail ih =>
    cases hpath' with
    | cons head' tail' =>
      obtain ⟨rfl, hrest⟩ := ih tail'
      obtain rfl := h _ _ _ _ head head'
      exact ⟨rfl, .cons ⟨head, head'⟩ hrest⟩

/-- A search that keeps one candidate for each label reaches the end of the descent that
its candidates make up. -/
theorem foldlM_eq_some_iff {find : α → τ → Option α} :
    ts.foldlM find a = some b ↔ Path (fun a t b => find a t = some b) a ts b := by
  induction ts generalizing a with
  | nil =>
    constructor
    · intro h
      cases h
      exact .nil
    · intro h
      cases h
      rfl
  | cons t ts ih =>
    rw [List.foldlM_cons]
    cases hfind : find a t with
    | none =>
      constructor
      · intro h
        cases h
      · intro h
        cases h with
        | cons head tail =>
          rw [hfind] at head
          cases head
    | some c =>
      constructor
      · intro h
        exact .cons hfind (ih.mp h)
      · intro h
        cases h with
        | cons head tail =>
          rw [hfind] at head
          cases head
          exact ih.mpr tail

/-- Counting only the entries with a property makes no difference to the one at position
`k` when all up to there have it. -/
theorem getElem?_filter_of_take {q : α → Bool} {k : ℕ} {l : List α}
    (h : ∀ x ∈ l.take (k + 1), q x = true) : (l.filter q)[k]? = l[k]? := by
  induction l generalizing k with
  | nil => rfl
  | cons x l ih =>
    rw [List.take_succ_cons] at h
    have hx : q x = true := h x List.mem_cons_self
    rw [List.filter_cons_of_pos hx]
    cases k with
    | zero => rfl
    | succ k =>
      rw [List.getElem?_cons_succ, List.getElem?_cons_succ]
      exact ih (fun y hy => h y (List.mem_cons_of_mem _ hy))

/-- An entry without repetition that has the same position among all entries and among those with a
property: all entries up to there have it. -/
theorem forall_mem_take_of_getElem?_filter {q : α → Bool} {k : ℕ} {l : List α} {x : α} (hnodup : l.Nodup)
    (hall : l[k]? = some x) (hfilter : (l.filter q)[k]? = some x) : ∀ y ∈ l.take (k + 1), q y = true := by
  obtain ⟨hk, hx⟩ := List.getElem?_eq_some_iff.mp hall
  have hqx : q x = true := (List.mem_filter.mp (List.mem_of_getElem? hfilter)).2
  have hsplit : l = l.take k ++ x :: l.drop (k + 1) := by
    rw [← hx, List.getElem_cons_drop, List.take_append_drop]
  have hposition : (l.filter q)[((l.take k).filter q).length]? = some x := by
    have hfiltered : l.filter q = (l.take k).filter q ++ x :: (l.drop (k + 1)).filter q := by
      rw [← List.filter_cons_of_pos hqx, ← List.filter_append, ← hsplit]
    rw [hfiltered, List.getElem?_append_right (Nat.le_refl _), Nat.sub_self]
    rfl
  have hlength : k = ((l.take k).filter q).length := by
    obtain ⟨hlt, -⟩ := List.getElem?_eq_some_iff.mp hfilter
    exact (List.getElem?_inj hlt (hnodup.filter q)).mp (hfilter.trans hposition.symm)
  have htake : ∀ y ∈ l.take k, q y = true := by
    apply List.length_filter_eq_length_iff.mp
    rw [← hlength, List.length_take_of_le (Nat.le_of_lt hk)]
  intro y hy
  rw [List.take_succ_eq_append_getElem hk, hx] at hy
  rcases List.mem_append.mp hy with hy | hy
  · exact htake y hy
  · rw [List.mem_singleton.mp hy]
    exact hqx

end WorkCode.TreeDescent
