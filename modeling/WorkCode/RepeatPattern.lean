import Mathlib.Data.List.Basic
import Mathlib.Data.List.Infix

/-!
# Sequences of repeated character classes

The regular expressions that need no grouping or alternation: a sequence of atoms,
each a class of characters with bounds on the number of repetitions. `search` is the
unanchored match of `grep` and of a `sed` address.
-/

namespace WorkCode.RepeatPattern

variable {α : Type*}

/-- A class repeated at least `lo` times, and at most `hi` times where that is bounded. -/
structure Atom (α : Type*) where
  cls : α → Bool
  lo : ℕ
  hi : Option ℕ

def Atom.accepts (a : Atom α) (s : List α) : Bool :=
  s.all a.cls && decide (a.lo ≤ s.length) && a.hi.all (fun n => decide (s.length ≤ n))

/-- The texts an anchored match accepts whole. -/
inductive Matches : List (Atom α) → List α → Prop
  | nil : Matches [] []
  | cons {a : Atom α} {r : List (Atom α)} {s t : List α} (head : a.accepts s = true)
      (tail : Matches r t) : Matches (a :: r) (s ++ t)

def matchesPrefix : List (Atom α) → List α → Bool
  | [], _ => true
  | a :: r, s => (List.range (s.length + 1)).any fun k =>
      a.accepts (s.take k) && matchesPrefix r (s.drop k)

/-- Whether some part of the text matches. -/
def search (r : List (Atom α)) (s : List α) : Bool := s.tails.any (matchesPrefix r)

theorem matchesPrefix_iff (r : List (Atom α)) (s : List α) :
    matchesPrefix r s = true ↔ ∃ m q, s = m ++ q ∧ Matches r m := by
  induction r generalizing s with
  | nil => simpa [matchesPrefix] using ⟨[], ⟨s, rfl⟩, .nil⟩
  | cons a r ih =>
    simp only [matchesPrefix, List.any_eq_true, List.mem_range, Bool.and_eq_true, ih]
    constructor
    · rintro ⟨k, -, ha, m, q, hdrop, hm⟩
      refine ⟨s.take k ++ m, q, ?_, .cons ha hm⟩
      rw [List.append_assoc, ← hdrop, List.take_append_drop]
    · rintro ⟨m, q, rfl, hm⟩
      cases hm with
      | @cons _ _ u v hu hv =>
        refine ⟨u.length, by simp only [List.length_append]; omega, ?_, v, q, ?_, hv⟩
        · simpa [List.append_assoc] using hu
        · simp [List.append_assoc]

theorem search_iff (r : List (Atom α)) (s : List α) :
    search r s = true ↔ ∃ p m q, s = p ++ (m ++ q) ∧ Matches r m := by
  simp only [search, List.any_eq_true, List.mem_tails, matchesPrefix_iff]
  constructor
  · rintro ⟨t, ⟨p, rfl⟩, m, q, rfl, hm⟩
    exact ⟨p, m, q, rfl, hm⟩
  · rintro ⟨p, m, q, rfl, hm⟩
    exact ⟨m ++ q, ⟨p, rfl⟩, m, q, rfl, hm⟩

theorem matches_append (r r' : List (Atom α)) (m : List α) :
    Matches (r ++ r') m ↔ ∃ u v, m = u ++ v ∧ Matches r u ∧ Matches r' v := by
  induction r generalizing m with
  | nil =>
    constructor
    · intro h
      exact ⟨[], m, rfl, .nil, h⟩
    · rintro ⟨u, v, rfl, hu, hv⟩
      cases hu
      exact hv
  | cons a r ih =>
    constructor
    · intro h
      cases h with
      | @cons _ _ s t hs ht =>
        obtain ⟨u, v, rfl, hu, hv⟩ := (ih t).mp ht
        exact ⟨s ++ u, v, (List.append_assoc s u v).symm, .cons hs hu, hv⟩
    · rintro ⟨u, v, rfl, hu, hv⟩
      cases hu with
      | @cons _ _ s t hs ht =>
        rw [List.append_assoc]
        exact .cons hs ((ih (t ++ v)).mpr ⟨t, v, rfl, ht, hv⟩)

/-- `.*`, where `.` stands for the members of a class. -/
def anything (cls : α → Bool) : Atom α := ⟨cls, 0, none⟩

theorem matches_anything_cons (cls : α → Bool) (r : List (Atom α)) (m : List α) :
    Matches (anything cls :: r) m ↔ ∃ u v, m = u ++ v ∧ u.all cls = true ∧ Matches r v := by
  constructor
  · intro h
    cases h with
    | @cons _ _ s t hs ht =>
      have hall : s.all cls = true := by simpa [Atom.accepts, anything] using hs
      exact ⟨s, t, rfl, hall, ht⟩
  · rintro ⟨u, v, rfl, hu, hv⟩
    exact .cons (by simpa [Atom.accepts, anything] using hu) hv

section Literal

variable [DecidableEq α]

def literal (s : List α) : List (Atom α) := s.map fun c => ⟨(decide <| · = c), 1, some 1⟩

theorem matches_literal (s m : List α) : Matches (literal s) m ↔ m = s := by
  induction s generalizing m with
  | nil =>
    constructor
    · intro h
      cases h
      rfl
    · rintro rfl
      exact .nil
  | cons c s ih =>
    constructor
    · intro h
      cases h with
      | @cons _ _ u v hu hv =>
        rw [(ih v).mp hv]
        cases u with
        | nil => simp [Atom.accepts] at hu
        | cons x u =>
          cases u with
          | nil =>
            have hx : x = c := by simpa [Atom.accepts] using hu
            rw [hx, List.singleton_append]
          | cons y u => simp [Atom.accepts] at hu
    · rintro rfl
      exact .cons (s := [c]) (by simp [Atom.accepts]) ((ih s).mpr rfl)

/-- The pattern `a.*b` finds the texts that have `a` and, after it and members of the class
only, `b`. -/
theorem search_literal_anything_literal (cls : α → Bool) (a b s : List α) :
    search (literal a ++ anything cls :: literal b) s = true ↔
      ∃ p t q, s = p ++ a ++ t ++ b ++ q ∧ t.all cls = true := by
  rw [search_iff]
  constructor
  · rintro ⟨p, m, q, rfl, hm⟩
    obtain ⟨u, v, rfl, hu, hv⟩ := (matches_append _ _ _).mp hm
    obtain ⟨t, w, rfl, ht, hw⟩ := (matches_anything_cons _ _ _).mp hv
    rw [matches_literal] at hu hw
    exact ⟨p, t, q, by simp [hu, hw], ht⟩
  · rintro ⟨p, t, q, rfl, ht⟩
    refine ⟨p, a ++ (t ++ b), q, by simp, ?_⟩
    refine (matches_append _ _ _).mpr ⟨a, t ++ b, rfl, (matches_literal _ _).mpr rfl, ?_⟩
    exact (matches_anything_cons _ _ _).mpr ⟨t, b, rfl, ht, (matches_literal _ _).mpr rfl⟩

end Literal

end WorkCode.RepeatPattern
