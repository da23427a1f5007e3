import WorkCode.OwnedLists
import WorkCode.PointerRing

/-!
# Chains with back pointers to slots

A chain starts in the slot of its head and goes from the slot of each node to the next node,
up to an empty slot. A node does not point back to a node but to the slot that it hangs in,
so the first node needs no other treatment than the rest. `attach` fills one slot and tells
what is put there where it hangs.
-/

namespace WorkCode.SlotChains

open OwnedLists

variable {α : Type}

/-- The slot at each address, and where each node says it hangs. -/
structure Slots (α : Type) where
  next : α → Option α
  pprev : α → Option α

/-- The node `x` hangs in the slot `a`, and says so. -/
def Slots.Link (s : Slots α) (a x : α) : Prop := s.next a = some x ∧ s.pprev x = some a

def Slots.Same (s s' : Slots α) (a : α) : Prop := s'.next a = s.next a ∧ s'.pprev a = s.pprev a

/-- The chain from the slot `head` through `xs` to an empty slot. -/
structure Hung (s : Slots α) (head : α) (xs : List α) : Prop where
  nodup : (head :: xs).Nodup
  linked : (head :: xs).IsChain s.Link
  last : s.next (xs.getLastD head) = none

/-- What hangs in the slot before `ys`, when nothing is known of that slot. -/
def Tail (s : Slots α) : List α → Prop
  | [] => True
  | y :: ys => Hung s y ys

variable {s s' t : Slots α} {head n x p : α} {o : Option α} {xs ys : List α}

theorem Slots.Same.trans (h : s.Same t x) (h' : t.Same s' x) : s.Same s' x :=
  ⟨h'.1.trans h.1, h'.2.trans h.2⟩

theorem getLastD_mem_cons (xs : List α) (head : α) : xs.getLastD head ∈ head :: xs := by
  rw [← List.getLast_eq_getLastD (List.cons_ne_nil head xs)]
  exact List.getLast_mem _

def hungShape : Shape (Slots α) α where
  Same := Slots.Same
  Holds := Hung
  congr := by
    intro s s' head xs hsame h
    refine ⟨h.nodup, ?_, ?_⟩
    · apply h.linked.imp_of_mem_imp
      intro a b ha hb hab
      exact ⟨(hsame a ha).1.trans hab.1, (hsame b hb).2.trans hab.2⟩
    · rw [(hsame _ (getLastD_mem_cons xs head)).1, h.last]

theorem hung_cut {y : α} : Hung s head (xs ++ y :: ys) ↔ (head :: (xs ++ y :: ys)).Nodup ∧
    (head :: xs).IsChain s.Link ∧ s.Link (xs.getLastD head) y ∧ Hung s y ys := by
  have hend : (xs ++ y :: ys).getLastD head = ys.getLastD y := by
    simp [List.getLastD_eq_getLast?, List.getLast?_cons]
  have hchain : (head :: (xs ++ y :: ys)).IsChain s.Link ↔ (head :: xs).IsChain s.Link ∧
      (y :: ys).IsChain s.Link ∧ s.Link (xs.getLastD head) y := by
    rw [← List.cons_append, List.isChain_append, List.getLast?_cons]
    simp [List.getLastD_eq_getLast?]
  constructor
  · intro h
    obtain ⟨hxs, hys, hlink⟩ := hchain.mp h.linked
    have hnodup := h.nodup
    rw [← List.cons_append] at hnodup
    refine ⟨h.nodup, hxs, hlink, hnodup.of_append_right, hys, ?_⟩
    rw [← hend, h.last]
  · intro h
    obtain ⟨hnodup, hxs, hlink, hys⟩ := h
    refine ⟨hnodup, hchain.mpr ⟨hxs, hys.linked, hlink⟩, ?_⟩
    rw [hend, hys.last]

theorem Hung.pprev_eq (h : Hung s head (xs ++ n :: ys)) : s.pprev n = some (xs.getLastD head) :=
  (hung_cut.mp h).2.2.1.2

theorem Hung.next_eq (h : Hung s head (xs ++ ys)) : s.next (xs.getLastD head) = ys.head? := by
  cases ys with
  | nil =>
    rw [List.append_nil] at h
    exact h.last
  | cons y ys => exact (hung_cut.mp h).2.2.1.1

theorem Hung.parts (h : Hung s head (xs ++ ys)) : (head :: xs).IsChain s.Link ∧ Tail s ys := by
  cases ys with
  | nil =>
    rw [List.append_nil] at h
    exact ⟨h.linked, trivial⟩
  | cons y ys =>
    obtain ⟨-, hxs, -, hys⟩ := hung_cut.mp h
    exact ⟨hxs, hys⟩

theorem Hung.next_node (h : Hung s head (xs ++ n :: ys)) : s.next n = ys.head? := by
  rw [List.append_cons] at h
  have hnext := h.next_eq
  rwa [List.getLastD_concat] at hnext

section Attach

variable [DecidableEq α]

def Slots.setNext (s : Slots α) (a : α) (o : Option α) : Slots α :=
  { s with next := Function.update s.next a o }

def Slots.setPprev (s : Slots α) (x : α) (o : Option α) : Slots α :=
  { s with pprev := Function.update s.pprev x o }

def Slots.attach (s : Slots α) (p : α) : Option α → Slots α
  | none => s.setNext p none
  | some y => (s.setNext p (some y)).setPprev y (some p)

@[simp] theorem Slots.next_attach (s : Slots α) (p : α) (o : Option α) :
    (s.attach p o).next = Function.update s.next p o := by
  cases o <;> rfl

theorem Slots.pprev_attach_of_ne (s : Slots α) (p : α) (hx : o ≠ some x) :
    (s.attach p o).pprev x = s.pprev x := by
  cases o with
  | none => rfl
  | some y =>
    apply Function.update_of_ne
    intro heq
    exact hx (congrArg some heq.symm)

theorem Slots.link_attach (s : Slots α) (p y : α) : (s.attach p (some y)).Link p y :=
  ⟨Function.update_self .., Function.update_self ..⟩

theorem Slots.Same.attach (h : s.Same t x) (hp : x ≠ p) (hx : o ≠ some x) : s.Same (t.attach p o) x := by
  apply h.trans
  constructor
  · rw [next_attach, Function.update_of_ne hp]
  · rw [t.pprev_attach_of_ne p hx]

theorem Slots.Link.attach {a : α} (h : s.Link a x) (ha : a ≠ p) (hx : o ≠ some x) :
    (s.attach p o).Link a x := by
  constructor
  · rw [next_attach, Function.update_of_ne ha, h.1]
  · rw [s.pprev_attach_of_ne p hx, h.2]

/-- A chain survives when neither a slot before its end nor a node behind its start is touched. -/
theorem isChain_attach {c : List α} (h : c.IsChain s.Link) (hp : p ∉ c.dropLast)
    (ho : ∀ x ∈ c.tail, o ≠ some x) : c.IsChain (s.attach p o).Link := by
  induction c with
  | nil => exact List.IsChain.nil
  | cons a c ih =>
    cases c with
    | nil => exact List.IsChain.singleton a
    | cons b c =>
      obtain ⟨hab, hc⟩ := List.isChain_cons_cons.mp h
      rw [List.dropLast_cons_cons, List.mem_cons, not_or] at hp
      apply List.isChain_cons_cons.mpr
      constructor
      · exact hab.attach (Ne.symm hp.1) (ho b List.mem_cons_self)
      · apply ih hc hp.2
        intro x hx
        exact ho x (List.mem_of_mem_tail hx)

/-- Attaching a tail in the last slot of a chain joins them. -/
theorem hung_attach (hnodup : (head :: (xs ++ ys)).Nodup) (hxs : (head :: xs).IsChain s.Link)
    (hys : Tail s ys) : Hung (s.attach (xs.getLastD head) ys.head?) head (xs ++ ys) := by
  obtain ⟨hlast, hout⟩ := PointerRing.getLastD_not_mem hnodup
  cases ys with
  | nil =>
    rw [List.append_nil] at hnodup ⊢
    refine ⟨hnodup, ?_, ?_⟩
    · apply isChain_attach hxs hlast
      intro x hx heq
      cases heq
    · rw [Slots.next_attach, List.head?_nil, Function.update_self]
  | cons y ys =>
    rw [← List.cons_append] at hnodup
    have hdisjoint := List.disjoint_of_nodup_append hnodup
    apply hung_cut.mpr
    refine ⟨hnodup, ?_, s.link_attach _ y, hys.nodup, ?_, ?_⟩
    · apply isChain_attach hxs hlast
      intro x hx heq
      have hyx : y = x := Option.some.inj heq
      exact hdisjoint (List.mem_of_mem_tail hx) (hyx ▸ List.mem_cons_self)
    · apply isChain_attach hys.linked
      · intro hmem
        exact hout (List.dropLast_subset _ hmem)
      · intro x hx heq
        have hyx : y = x := Option.some.inj heq
        exact (List.nodup_cons.mp hys.nodup).1 (hyx ▸ hx)
    · rw [Slots.next_attach, Function.update_of_ne, hys.last]
      intro heq
      exact hout (heq ▸ getLastD_mem_cons ys y)

/-- A node is taken out by attaching what is behind it where it hung. -/
theorem Hung.remove (h : Hung s head (xs ++ n :: ys)) :
    Hung (s.attach (xs.getLastD head) ys.head?) head (xs ++ ys) := by
  have hnodup : (head :: (xs ++ ys)).Nodup :=
    h.nodup.sublist (((List.sublist_cons_self n ys).append_left xs).cons_cons head)
  have hwhole := h
  rw [List.append_cons] at hwhole
  exact hung_attach hnodup h.parts.1 hwhole.parts.2

/-- A node from outside goes in by two attachments. -/
theorem Hung.insert (h : Hung s head (xs ++ ys)) (hn : n ∉ head :: (xs ++ ys)) :
    Hung ((s.attach n ys.head?).attach (xs.getLastD head) (some n)) head (xs ++ n :: ys) := by
  obtain ⟨hxs, hys⟩ := h.parts
  have hnodup : (head :: (xs ++ n :: ys)).Nodup := by
    apply (List.perm_middle.cons head).nodup_iff.mpr
    apply (List.Perm.swap n head (xs ++ ys)).nodup_iff.mpr
    exact List.nodup_cons.mpr ⟨hn, h.nodup⟩
  have hback : (n :: ys).Nodup := by
    rw [← List.cons_append] at hnodup
    exact hnodup.of_append_right
  apply hung_attach hnodup
  · apply isChain_attach hxs
    · intro hmem
      apply hn
      rw [← List.cons_append]
      exact List.mem_append_left ys (List.dropLast_subset _ hmem)
    · intro x hx heq
      have hdisjoint := h.nodup
      rw [← List.cons_append] at hdisjoint
      apply List.disjoint_of_nodup_append hdisjoint (List.mem_of_mem_tail hx)
      exact List.mem_of_mem_head? heq
  · exact @hung_attach α s n [] ys _ hback (List.IsChain.singleton n) hys

end Attach

end WorkCode.SlotChains
