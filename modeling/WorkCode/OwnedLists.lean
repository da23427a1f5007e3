import Mathlib.Data.List.Nodup
import Mathlib.Logic.Function.Basic

/-!
# Lists that share no cells

A memory holds any number of lists, each under its head. A shape says what one list looks
like and looks at no cell but the list's own, so what is written elsewhere cannot break it.
An operation works on the cells of a few lists and leaves new lists in their place; all
others keep their form without a proof of their own.
-/

namespace WorkCode.OwnedLists

variable {σ α : Type*}

/-- The form of a list in a memory. `Same s s' a` says that two memories do not differ at `a`. -/
structure Shape (σ α : Type*) where
  Same : σ → σ → α → Prop
  Holds : σ → α → List α → Prop
  congr : ∀ {s s' : σ} {head : α} {xs : List α},
    (∀ a ∈ head :: xs, Same s s' a) → Holds s head xs → Holds s' head xs

/-- The lists in a memory: what is under each head, `none` where there is no head. -/
abbrev Heads (α : Type*) := α → Option (List α)

/-- Every list has its shape, and no two lists have a cell in common. -/
structure Owned (S : Shape σ α) (s : σ) (lists : Heads α) : Prop where
  holds : ∀ {head xs}, lists head = some xs → S.Holds s head xs
  disjoint : ∀ {head xs other ys}, lists head = some xs → lists other = some ys → head ≠ other →
    (head :: xs).Disjoint (other :: ys)

/-- The cells from `head` on meet no list but the head's own. -/
def Apart (lists : Heads α) (head : α) (xs : List α) : Prop :=
  ∀ other ys, lists other = some ys → other ≠ head → (head :: xs).Disjoint (other :: ys)

/-- A cell on its own: in no list, or the head of an empty one. -/
def Loose (lists : Heads α) (a : α) : Prop :=
  ∀ head xs, lists head = some xs → a ∈ head :: xs → head = a ∧ xs = []

variable {S : Shape σ α} {s s' : σ} {lists : Heads α} {gone head a : α} {gs xs zs : List α}

theorem Owned.apart (h : Owned S s lists) (hhead : lists head = some xs) : Apart lists head xs := by
  intro other ys hother hne
  exact h.disjoint hhead hother (Ne.symm hne)

theorem Loose.apart (h : Loose lists a) : Apart lists a [] := by
  intro other ys hother hne b hb hmem
  rw [List.mem_singleton.mp hb] at hmem
  exact hne (h other ys hother hmem).1

/-- A cell that lies in a list is not loose, unless it is the head of an empty list. -/
theorem Loose.not_mem (h : Loose lists a) (hhead : lists head = some xs) : a ∉ xs := by
  intro hmem
  have hempty := (h head xs hhead (List.mem_cons_of_mem head hmem)).2
  rw [hempty] at hmem
  exact List.not_mem_nil hmem

theorem Owned.eq_none (h : Owned S s lists) (hhead : lists head = some xs) (ha : a ∈ xs) (hne : a ≠ head) :
    lists a = none := by
  by_contra hsome
  obtain ⟨ys, hys⟩ := Option.ne_none_iff_exists'.mp hsome
  exact h.disjoint hhead hys (Ne.symm hne) (List.mem_cons_of_mem head ha) List.mem_cons_self

theorem Owned.loose_of_nil (h : Owned S s lists) (ha : lists a = some []) : Loose lists a := by
  intro head xs hhead hmem
  by_cases heq : head = a
  · rw [heq, ha] at hhead
    cases hhead
    exact ⟨heq, rfl⟩
  · exact absurd List.mem_cons_self (h.disjoint hhead ha heq hmem)

/-- What is written to cells of no list keeps all lists. -/
theorem Owned.congr (h : Owned S s lists)
    (hsame : ∀ head xs, lists head = some xs → ∀ a ∈ head :: xs, S.Same s s' a) : Owned S s' lists := by
  constructor
  · intro head xs hhead
    exact S.congr (hsame head xs hhead) (h.holds hhead)
  · intro head xs other ys hhead hother hne
    exact h.disjoint hhead hother hne

theorem loose_none (a : α) : Loose (fun _ => none) a := by
  intro head xs h
  cases h

theorem owned_none (S : Shape σ α) (s : σ) : Owned S s (fun _ => none) := by
  constructor
  · intro head xs h
    cases h
  · intro head xs other ys h
    cases h

section Put

variable [DecidableEq α]

/-- The list `zs` under `head`, and no list under `gone` any more. -/
def put (lists : Heads α) (gone head : α) (zs : List α) : Heads α :=
  Function.update (Function.update lists gone none) head (some zs)

@[simp] theorem put_head (lists : Heads α) (gone head : α) (zs : List α) :
    put lists gone head zs head = some zs := Function.update_self ..

theorem put_gone (lists : Heads α) (hne : gone ≠ head) (zs : List α) :
    put lists gone head zs gone = none := by
  rw [put, Function.update_of_ne hne, Function.update_self]

theorem put_of_ne (lists : Heads α) {a : α} (hgone : a ≠ gone) (hhead : a ≠ head) (zs : List α) :
    put lists gone head zs a = lists a := by
  rw [put, Function.update_of_ne hhead, Function.update_of_ne hgone]

/-- A list after a change: the new one, or one that was there under a third head. -/
theorem put_eq_some {ys : List α} (h : put lists gone head zs a = some ys) :
    (a = head ∧ ys = zs) ∨ (a ≠ gone ∧ a ≠ head ∧ lists a = some ys) := by
  by_cases hhead : a = head
  · rw [hhead, put_head] at h
    exact .inl ⟨hhead, (Option.some.inj h).symm⟩
  · by_cases hgone : a = gone
    · rw [hgone, put_gone lists (hgone ▸ hhead)] at h
      cases h
    · rw [put_of_ne lists hgone hhead] at h
      exact .inr ⟨hgone, hhead, h⟩

/-- An operation that writes only to the cells of two lists, and leaves under the head of the
second a list of such cells, keeps all lists. -/
theorem Owned.put (h : Owned S s lists) (hgone : Apart lists gone gs) (hhead : Apart lists head xs)
    (hcells : ∀ a ∈ zs, a ∈ gone :: gs ∨ a ∈ head :: xs)
    (hsame : ∀ a, a ∉ gone :: gs → a ∉ head :: xs → S.Same s s' a) (hnew : S.Holds s' head zs) :
    Owned S s' (put lists gone head zs) := by
  have hterritory : ∀ {other ys}, lists other = some ys → other ≠ gone → other ≠ head →
      ∀ a ∈ other :: ys, a ∉ gone :: gs ∧ a ∉ head :: xs := by
    intro other ys hother hne hne' a ha
    exact ⟨fun hmem => hgone other ys hother hne hmem ha, fun hmem => hhead other ys hother hne' hmem ha⟩
  have hnewCells : ∀ a ∈ head :: zs, a ∈ gone :: gs ∨ a ∈ head :: xs := by
    intro a ha
    rcases List.mem_cons.mp ha with heq | hmem
    · exact .inr (heq ▸ List.mem_cons_self)
    · exact hcells a hmem
  have hapart : ∀ {other ys}, lists other = some ys → other ≠ gone → other ≠ head →
      (head :: zs).Disjoint (other :: ys) := by
    intro other ys hother hne hne' a ha hmem
    obtain ⟨hout, hout'⟩ := hterritory hother hne hne' a hmem
    rcases hnewCells a ha with hin | hin
    · exact hout hin
    · exact hout' hin
  constructor
  · intro other ys hother
    rcases put_eq_some hother with ⟨rfl, rfl⟩ | ⟨hne, hne', hold⟩
    · exact hnew
    · apply S.congr _ (h.holds hold)
      intro a ha
      obtain ⟨hout, hout'⟩ := hterritory hold hne hne' a ha
      exact hsame a hout hout'
  · intro first ys second us hfirst hsecond hdiff
    rcases put_eq_some hfirst with ⟨rfl, rfl⟩ | ⟨hne, hne', hold⟩
    · rcases put_eq_some hsecond with ⟨rfl, rfl⟩ | ⟨hne, hne', hold⟩
      · exact absurd rfl hdiff
      · exact hapart hold hne hne'
    · rcases put_eq_some hsecond with ⟨rfl, rfl⟩ | ⟨-, -, hold'⟩
      · intro a ha hmem
        exact hapart hold hne hne' hmem ha
      · exact h.disjoint hold hold' hdiff

/-- The case of one list that is replaced by another under the same head. -/
theorem Owned.put_self (h : Owned S s lists) (hhead : Apart lists head xs) (hcells : ∀ a ∈ zs, a ∈ head :: xs)
    (hsame : ∀ a, a ∉ head :: xs → S.Same s s' a) (hnew : S.Holds s' head zs) :
    Owned S s' (OwnedLists.put lists head head zs) :=
  h.put hhead hhead (fun a ha => .inl (hcells a ha)) (fun a ha _ => hsame a ha) hnew

/-- What was a cell of the replaced list and is none of the new one is in no list. -/
theorem Owned.loose_put (h : Owned S s lists) (hhead : lists head = some xs) (ha : a ∈ xs) (hne : a ≠ head)
    (hout : a ∉ zs) : Loose (OwnedLists.put lists gone head zs) a := by
  intro other ys hother hmem
  rcases put_eq_some hother with ⟨rfl, rfl⟩ | ⟨-, hne', hold⟩
  · rcases List.mem_cons.mp hmem with heq | hin
    · exact absurd heq hne
    · exact absurd hin hout
  · exact absurd hmem (h.disjoint hhead hold (Ne.symm hne') (List.mem_cons_of_mem head ha))

theorem Loose.put (h : Loose lists a) (hout : a ∉ head :: zs) : Loose (OwnedLists.put lists gone head zs) a := by
  intro other ys hother hmem
  rcases put_eq_some hother with ⟨rfl, rfl⟩ | ⟨-, -, hold⟩
  · exact absurd hmem hout
  · exact h other ys hold hmem

/-- So is the head of a list that has gone, unless its cell went into the new list. -/
theorem Owned.loose_gone (h : Owned S s lists) (hgone : lists gone = some gs) (hne : gone ≠ head)
    (hout : gone ∉ zs) : Loose (OwnedLists.put lists gone head zs) gone := by
  intro other ys hother hmem
  rcases put_eq_some hother with ⟨rfl, rfl⟩ | ⟨hne', -, hold⟩
  · rcases List.mem_cons.mp hmem with heq | hin
    · exact absurd heq hne
    · exact absurd hin hout
  · exact absurd hmem (h.disjoint hgone hold (Ne.symm hne') List.mem_cons_self)

theorem put_put (lists : Heads α) (head : α) (xs zs : List α) :
    put (put lists head head xs) head head zs = put lists head head zs := by
  simp only [put, Function.update_idem]

theorem put_same (lists : Heads α) (hhead : lists head = some zs) : put lists head head zs = lists := by
  rw [put, Function.update_idem, ← hhead, Function.update_eq_self]

end Put

end WorkCode.OwnedLists
