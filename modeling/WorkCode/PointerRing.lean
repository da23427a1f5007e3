import Mathlib.Data.List.Chain
import Mathlib.Data.List.Nodup
import Mathlib.Logic.Function.Basic

/-!
# Rings of cells linked both ways

A pair of pointer maps holds a ring through a head when the cells follow each other in
both directions and no cell occurs twice. Every operation on a ring redirects some links;
`connect` redirects one, and all links that neither leave nor enter its ends survive.
-/

namespace WorkCode.PointerRing

variable {α : Type}

/-- The cell behind and the cell before each cell. -/
structure Links (α : Type) where
  next : α → α
  prev : α → α

def Links.Linked (l : Links α) (a b : α) : Prop := l.next a = b ∧ l.prev b = a

structure Ring (l : Links α) (head : α) (xs : List α) : Prop where
  nodup : (head :: xs).Nodup
  linked : (head :: xs ++ [head]).IsChain l.Linked

section Update

variable [DecidableEq α]

def Links.setNext (l : Links α) (a b : α) : Links α := { l with next := Function.update l.next a b }

def Links.setPrev (l : Links α) (b a : α) : Links α := { l with prev := Function.update l.prev b a }

def Links.connect (l : Links α) (a b : α) : Links α := (l.setPrev b a).setNext a b

@[simp] theorem Links.next_connect (l : Links α) (a b : α) :
    (l.connect a b).next = Function.update l.next a b := rfl

@[simp] theorem Links.prev_connect (l : Links α) (a b : α) :
    (l.connect a b).prev = Function.update l.prev b a := rfl

theorem Links.linked_connect (l : Links α) (a b : α) : (l.connect a b).Linked a b := by
  simp [Linked]

/-- A link survives unless the redirection leaves from where it does or enters where it
does. -/
theorem Links.Linked.connect {l : Links α} {a b p q : α} (h : l.Linked a b) (ha : a ≠ p)
    (hb : b ≠ q) : (l.connect p q).Linked a b := by
  constructor
  · rw [next_connect, Function.update_of_ne ha, h.1]
  · rw [prev_connect, Function.update_of_ne hb, h.2]

/-- A chain survives a redirection that leaves from no cell but its last and enters no
cell but its first. -/
theorem isChain_connect {l : Links α} {c : List α} {p q : α} (h : c.IsChain l.Linked)
    (hp : p ∉ c.dropLast) (hq : q ∉ c.tail) : c.IsChain (l.connect p q).Linked := by
  induction c with
  | nil => exact List.IsChain.nil
  | cons a c ih =>
    cases c with
    | nil => exact List.IsChain.singleton a
    | cons b c =>
      obtain ⟨hab, hc⟩ := List.isChain_cons_cons.mp h
      rw [List.dropLast_cons_cons, List.mem_cons, not_or] at hp
      rw [List.tail_cons, List.mem_cons, not_or] at hq
      apply List.isChain_cons_cons.mpr
      exact ⟨hab.connect (Ne.symm hp.1) (Ne.symm hq.1), ih hc hp.2 hq.2⟩

end Update

section Cut

variable {l : Links α} {head : α} {xs ys : List α}

/-- A ring cut behind `xs`: the two chains, and the link from the one to the other. -/
theorem ring_append_iff : Ring l head (xs ++ ys) ↔ (head :: (xs ++ ys)).Nodup ∧
    (head :: xs).IsChain l.Linked ∧ (ys ++ [head]).IsChain l.Linked ∧
    l.Linked (xs.getLastD head) (ys.headD head) := by
  have hlast : (head :: xs).getLast? = some (xs.getLastD head) := by simp [List.getLast?_cons]
  have hhead : (ys ++ [head]).head? = some (ys.headD head) := by cases ys <;> rfl
  have hcut : (head :: (xs ++ ys) ++ [head]).IsChain l.Linked ↔ (head :: xs).IsChain l.Linked ∧
      (ys ++ [head]).IsChain l.Linked ∧ l.Linked (xs.getLastD head) (ys.headD head) := by
    rw [List.cons_append, List.append_assoc, ← List.cons_append, List.isChain_append, hlast, hhead]
    simp
  rw [← hcut]
  exact ⟨fun h => ⟨h.nodup, h.linked⟩, fun h => ⟨h.1, h.2⟩⟩

theorem ring_nil_iff : Ring l head [] ↔ l.Linked head head := by
  have h := @ring_append_iff α l head [] []
  simpa using h

theorem Ring.linked_out (h : Ring l head xs) : l.Linked head (xs.headD head) := by
  rw [← List.nil_append xs] at h
  exact (ring_append_iff.mp h).2.2.2

theorem Ring.linked_in (h : Ring l head xs) : l.Linked (xs.getLastD head) head := by
  rw [← List.append_nil xs] at h
  exact (ring_append_iff.mp h).2.2.2

theorem Ring.linked_before {x : α} (h : Ring l head (xs ++ x :: ys)) :
    l.Linked (xs.getLastD head) x := (ring_append_iff.mp h).2.2.2

theorem Ring.linked_behind {x : α} (h : Ring l head (xs ++ x :: ys)) :
    l.Linked x (ys.headD head) := by
  rw [List.append_cons] at h
  simpa using (ring_append_iff.mp h).2.2.2

theorem Ring.inverse (h : Ring l head xs) {a : α} (ha : a ∈ head :: xs) :
    l.prev (l.next a) = a ∧ l.next (l.prev a) = a := by
  rcases List.mem_cons.mp ha with rfl | hmem
  · exact ⟨by rw [h.linked_out.1, h.linked_out.2], by rw [h.linked_in.2, h.linked_in.1]⟩
  · obtain ⟨before, behind, rfl⟩ := List.append_of_mem hmem
    have hin := h.linked_before
    have hout := h.linked_behind
    exact ⟨by rw [hout.1, hout.2], by rw [hin.2, hin.1]⟩

end Cut

section Ends

variable {head : α} {xs ys : List α} (h : (head :: (xs ++ ys)).Nodup)
include h

/-- The cell before a cut leaves the part before it through its end only, and is not in
the part behind it. -/
theorem getLastD_not_mem : xs.getLastD head ∉ (head :: xs).dropLast ∧ xs.getLastD head ∉ ys := by
  rw [← List.cons_append, ← List.dropLast_append_getLast (List.cons_ne_nil head xs),
    List.getLast_eq_getLastD] at h
  have hdisjoint := List.disjoint_of_nodup_append h
  constructor
  · intro hmem
    have hfirst := List.disjoint_of_nodup_append h.of_append_left
    exact hfirst hmem (List.mem_singleton.mpr rfl)
  · intro hmem
    exact hdisjoint (List.mem_append_right _ (List.mem_singleton.mpr rfl)) hmem

/-- The cell behind a cut enters the part behind it through its start only, and is not in
the part before it. -/
theorem headD_not_mem : ys.headD head ∉ (ys ++ [head]).tail ∧ ys.headD head ∉ xs := by
  obtain ⟨hhead, happend⟩ := List.nodup_cons.mp h
  rw [List.mem_append, not_or] at hhead
  cases ys with
  | nil => exact ⟨List.not_mem_nil, hhead.1⟩
  | cons y ys =>
    constructor
    · intro hmem
      rcases List.mem_append.mp hmem with hin | hlast
      · exact (List.nodup_cons.mp happend.of_append_right).1 hin
      · have heq : y = head := List.mem_singleton.mp hlast
        exact hhead.2 (heq ▸ List.mem_cons_self)
    · intro hmem
      exact List.disjoint_of_nodup_append happend hmem List.mem_cons_self

end Ends

section Splice

variable [DecidableEq α] {l : Links α} {head x : α} {xs ys : List α}

/-- Redirecting the link across a cut closes the ring over whatever was there. -/
theorem ring_connect (hnodup : (head :: (xs ++ ys)).Nodup) (hxs : (head :: xs).IsChain l.Linked)
    (hys : (ys ++ [head]).IsChain l.Linked) :
    Ring (l.connect (xs.getLastD head) (ys.headD head)) head (xs ++ ys) := by
  obtain ⟨hlast, hleave⟩ := getLastD_not_mem hnodup
  obtain ⟨hfirst, henter⟩ := headD_not_mem hnodup
  apply ring_append_iff.mpr
  refine ⟨hnodup, ?_, ?_, l.linked_connect _ _⟩
  · apply isChain_connect hxs hlast henter
  · apply isChain_connect hys _ hfirst
    rwa [List.dropLast_concat]

/-- Linking the neighbours of a cell with each other takes it out. -/
theorem Ring.remove (h : Ring l head (xs ++ x :: ys)) :
    Ring (l.connect (l.prev x) (l.next x)) head (xs ++ ys) := by
  have hcells : (head :: (xs ++ ys)).Nodup :=
    List.Nodup.sublist (((List.sublist_cons_self x ys).append_left xs).cons_cons head) h.nodup
  obtain ⟨-, hxs, hys, -⟩ := ring_append_iff.mp h
  rw [h.linked_before.2, h.linked_behind.1]
  apply ring_connect hcells hxs
  exact hys.tail

/-- A cell from outside goes in between two neighbours by two redirections. -/
theorem Ring.insert (h : Ring l head (xs ++ ys)) (hx : x ∉ head :: (xs ++ ys)) :
    Ring ((l.connect x (ys.headD head)).connect (xs.getLastD head) x) head (xs ++ x :: ys) := by
  obtain ⟨hnodup, hxs, hys, -⟩ := ring_append_iff.mp h
  obtain ⟨hfirst, henter⟩ := headD_not_mem hnodup
  have hcells : (head :: (xs ++ x :: ys)).Nodup := by
    apply (List.perm_middle.cons head).nodup_iff.mpr
    apply (List.Perm.swap x head (xs ++ ys)).nodup_iff.mpr
    exact List.nodup_cons.mpr ⟨hx, hnodup⟩
  rw [List.mem_cons, List.mem_append, not_or, not_or] at hx
  apply ring_connect hcells
  · apply isChain_connect hxs _ henter
    intro hmem
    rcases List.mem_cons.mp (List.dropLast_subset _ hmem) with heq | hin
    · exact hx.1 heq
    · exact hx.2.1 hin
  · have hrest : (ys ++ [head]).IsChain (l.connect x (ys.headD head)).Linked := by
      apply isChain_connect hys _ hfirst
      rw [List.dropLast_concat]
      exact hx.2.2
    have hlink := l.linked_connect x (ys.headD head)
    cases ys with
    | nil => exact List.isChain_cons_cons.mpr ⟨hlink, hrest⟩
    | cons y ys => exact List.isChain_cons_cons.mpr ⟨hlink, hrest⟩

end Splice

section Loops

variable [DecidableEq α]

/-- What a loop visits from the cursor `pos` on, if it ends within `fuel` tests. `node pos` is
the node of a cursor and `cursor` goes back. -/
def forEach (node cursor step : α → α) (head : α) : ℕ → α → Option (List α)
  | 0, _ => none
  | fuel + 1, pos =>
    if node pos = head then some []
    else (forEach node cursor step head fuel (cursor (step (node pos)))).map (pos :: ·)

variable {node cursor : α → α} (hcursor : ∀ x, node (cursor x) = x) {l : Links α} {head : α} {xs ys : List α}
include hcursor

/-- A loop that has come to the node behind `a` visits the chain from there to the head. -/
theorem forEach_eq {a : α} (h : (a :: ys ++ [head]).IsChain l.Linked) (hys : head ∉ ys) {fuel : ℕ}
    (hfuel : ys.length < fuel) :
    forEach node cursor l.next head fuel (cursor (l.next a)) = some (ys.map cursor) := by
  induction ys generalizing a fuel with
  | nil =>
    obtain ⟨fuel, rfl⟩ := Nat.exists_eq_add_one.mpr hfuel
    have hnext : l.next a = head := (List.isChain_cons_cons.mp h).1.1
    rw [forEach, hcursor, if_pos hnext]
    rfl
  | cons y ys ih =>
    obtain ⟨fuel, rfl⟩ := Nat.exists_eq_add_one.mpr (Nat.zero_lt_of_lt hfuel)
    obtain ⟨hay, hrest⟩ := List.isChain_cons_cons.mp h
    rw [List.mem_cons, not_or] at hys
    rw [List.length_cons] at hfuel
    rw [forEach, hcursor, hay.1, if_neg (Ne.symm hys.1), ih hrest hys.2 (by omega)]
    rfl

theorem forEach_ring {x : α} (h : Ring l head (xs ++ x :: ys)) {fuel : ℕ} (hfuel : ys.length < fuel) :
    forEach node cursor l.next head fuel (cursor (l.next x)) = some (ys.map cursor) := by
  have hlinked := h.linked
  have hassoc : head :: (xs ++ x :: ys) ++ [head] = (head :: xs) ++ x :: (ys ++ [head]) := by simp
  rw [hassoc, List.isChain_split] at hlinked
  apply forEach_eq hcursor hlinked.2 _ hfuel
  intro hmem
  apply (List.nodup_cons.mp h.nodup).1
  exact List.mem_append_right xs (List.mem_cons_of_mem x hmem)

theorem forEach_head (h : Ring l head xs) {fuel : ℕ} (hfuel : xs.length < fuel) :
    forEach node cursor l.next head fuel (cursor (l.next head)) = some (xs.map cursor) :=
  forEach_eq hcursor h.linked (List.nodup_cons.mp h.nodup).1 hfuel

end Loops

end WorkCode.PointerRing
