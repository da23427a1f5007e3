import WorkCode.OwnedLists
import WorkCode.PointerRing

/-!
# Rings that share no cells

A ring is a shape in the sense of `OwnedLists`. A redirection touches the two cells it
links, chains are joined by linking the end of the one to the start of the other, and a
ring may be read from any of its cells.
-/

namespace WorkCode.PointerRing

open OwnedLists

variable {α : Type} {l l' m : Links α} {head list x a : α} {xs ys zs : List α}

def Links.Same (l l' : Links α) (a : α) : Prop := l'.next a = l.next a ∧ l'.prev a = l.prev a

theorem Links.Same.trans (h : l.Same m a) (h' : m.Same l' a) : l.Same l' a :=
  ⟨h'.1.trans h.1, h'.2.trans h.2⟩

theorem isChain_congr {c : List α} (h : ∀ a ∈ c, l.Same l' a) (hc : c.IsChain l.Linked) :
    c.IsChain l'.Linked := by
  apply hc.imp_of_mem_imp
  intro a b ha hb hab
  exact ⟨(h a ha).1.trans hab.1, (h b hb).2.trans hab.2⟩

def ringShape : Shape (Links α) α where
  Same := Links.Same
  Holds := Ring
  congr := by
    intro l l' head xs hsame hring
    refine ⟨hring.nodup, isChain_congr ?_ hring.linked⟩
    intro a ha
    rcases List.mem_append.mp ha with hmem | hlast
    · exact hsame a hmem
    · exact hsame a (List.mem_singleton.mp hlast ▸ List.mem_cons_self)

theorem Ring.reroot (h : Ring l head (xs ++ x :: ys)) : Ring l x (ys ++ head :: xs) := by
  have hperm : (head :: (xs ++ x :: ys)).Perm (x :: (ys ++ head :: xs)) := by
    have hswap := @List.perm_append_comm α (head :: xs) (x :: ys)
    rwa [List.cons_append, List.cons_append] at hswap
  have hlinked := h.linked
  have hleft : head :: (xs ++ x :: ys) ++ [head] = (head :: xs) ++ x :: (ys ++ [head]) := by simp
  have hright : x :: (ys ++ head :: xs) ++ [x] = (x :: ys) ++ head :: (xs ++ [x]) := by simp
  rw [hleft, List.isChain_split] at hlinked
  refine ⟨hperm.nodup_iff.mp h.nodup, ?_⟩
  rw [hright, List.isChain_split]
  exact ⟨hlinked.2, hlinked.1⟩

theorem ring_cons_iff : Ring l head (x :: xs) ↔ Ring l x (xs ++ [head]) := by
  constructor
  · intro h
    have hring := @Ring.reroot α l head x [] xs h
    exact hring
  · intro h
    have hring := @Ring.reroot α l x head xs [] h
    exact hring

/-- The pointers with their directions exchanged. -/
def Links.mirror (l : Links α) : Links α := ⟨l.prev, l.next⟩

/-- Read backwards, a ring is a ring with its cells in the other order. -/
theorem Ring.mirror (h : Ring l head xs) : Ring l.mirror head xs.reverse := by
  constructor
  · have hperm := (List.reverse_perm xs).cons head
    exact hperm.nodup_iff.mpr h.nodup
  · have hlinked : (head :: xs ++ [head]).reverse.IsChain l.mirror.Linked := by
      rw [List.isChain_reverse]
      apply h.linked.imp
      intro a b hab
      exact ⟨hab.2, hab.1⟩
    simpa using hlinked

theorem forEach_head_prev [DecidableEq α] {node cursor : α → α} (hcursor : ∀ x, node (cursor x) = x)
    (h : Ring l head xs) {fuel : ℕ} (hfuel : xs.length < fuel) :
    forEach node cursor l.prev head fuel (cursor (l.prev head)) = some (xs.reverse.map cursor) := by
  rw [← List.length_reverse] at hfuel
  exact forEach_head hcursor h.mirror hfuel

section Connect

variable [DecidableEq α]

theorem Links.same_connect (l : Links α) {p q : α} (hp : a ≠ p) (hq : a ≠ q) :
    l.Same (l.connect p q) a := by
  constructor
  · rw [next_connect, Function.update_of_ne hp]
  · rw [prev_connect, Function.update_of_ne hq]

/-- Linking the end of a chain to the start of another joins them. -/
theorem isChain_join {p q : α} (hnodup : (xs ++ [p] ++ q :: ys).Nodup) (hxs : (xs ++ [p]).IsChain l.Linked)
    (hys : (q :: ys).IsChain l.Linked) : (xs ++ [p] ++ q :: ys).IsChain (l.connect p q).Linked := by
  have hdisjoint := List.disjoint_of_nodup_append hnodup
  have hp : p ∉ xs := by
    intro hmem
    have hfirst := List.disjoint_of_nodup_append hnodup.of_append_left
    exact hfirst hmem List.mem_cons_self
  have hp' : p ∉ q :: ys := fun hmem => hdisjoint (List.mem_append_right xs List.mem_cons_self) hmem
  have hq : q ∉ xs ++ [p] := fun hmem => hdisjoint hmem List.mem_cons_self
  have hq' : q ∉ ys := (List.nodup_cons.mp hnodup.of_append_right).1
  rw [List.append_assoc, List.singleton_append]
  apply List.isChain_append_cons_cons.mpr
  refine ⟨?_, l.linked_connect p q, ?_⟩
  · apply isChain_connect hxs
    · rwa [List.dropLast_concat]
    · intro hmem
      exact hq (List.mem_of_mem_tail hmem)
  · apply isChain_connect hys
    · intro hmem
      exact hp' (List.dropLast_subset _ hmem)
    · exact hq'

/-- A cell goes between the two ends of a cut, whatever was there before. -/
theorem ring_between (hnodup : (head :: (xs ++ x :: ys)).Nodup) (hxs : (head :: xs).IsChain l.Linked)
    (hys : (ys ++ [head]).IsChain l.Linked) :
    Ring ((l.connect x (ys.headD head)).connect (xs.getLastD head) x) head (xs ++ x :: ys) := by
  have hout : x ∉ head :: xs := by
    intro hmem
    rw [← List.cons_append] at hnodup
    exact List.disjoint_of_nodup_append hnodup hmem List.mem_cons_self
  have hwhole : (head :: (xs ++ ys)).Nodup :=
    hnodup.sublist (((List.sublist_cons_self x ys).append_left xs).cons_cons head)
  obtain ⟨hfirst, henter⟩ := headD_not_mem hwhole
  apply ring_connect hnodup
  · apply isChain_connect hxs _ henter
    intro hmem
    exact hout (List.dropLast_subset _ hmem)
  · have hrest : (ys ++ [head]).IsChain (l.connect x (ys.headD head)).Linked := by
      apply isChain_connect hys _ hfirst
      rw [List.dropLast_concat]
      exact (List.nodup_cons.mp (List.nodup_cons.mp hnodup).2.of_append_right).1
    have hlink := l.linked_connect x (ys.headD head)
    cases ys with
    | nil => exact List.isChain_cons_cons.mpr ⟨hlink, hrest⟩
    | cons y ys => exact List.isChain_cons_cons.mpr ⟨hlink, hrest⟩

/-- The cells of one ring go into a cut of another. -/
theorem Ring.splice {z last : α} (h : Ring l head (xs ++ ys)) (hlist : Ring l list (z :: zs))
    (hdisjoint : (head :: (xs ++ ys)).Disjoint (list :: z :: zs)) (hlast : (z :: zs).getLastD list = last) :
    Ring ((l.connect (xs.getLastD head) z).connect last (ys.headD head)) head (xs ++ z :: zs ++ ys) := by
  obtain ⟨hnodup, hxs, hys, -⟩ := ring_append_iff.mp h
  obtain ⟨hfirst, henter⟩ := headD_not_mem hnodup
  have hchain : (z :: zs).IsChain l.Linked := by
    have hcut := hlist
    rw [← List.append_nil (z :: zs)] at hcut
    exact (ring_append_iff.mp hcut).2.1.tail
  have hcells : (head :: (xs ++ (z :: zs) ++ ys)).Nodup := by
    have hdisjoint' : (head :: (xs ++ ys)).Disjoint (z :: zs) :=
      fun a ha hmem => hdisjoint ha (List.mem_cons_of_mem list hmem)
    have happend := hnodup.append (List.nodup_cons.mp hlist.nodup).2 hdisjoint'
    have hperm : (head :: (xs ++ ys) ++ z :: zs).Perm (head :: (xs ++ (z :: zs) ++ ys)) := by
      rw [List.cons_append, List.append_assoc, List.append_assoc]
      exact ((List.perm_append_comm).append_left xs).cons head
    exact hperm.nodup_iff.mp happend
  have hleft : (head :: (xs ++ z :: zs)).IsChain (l.connect (xs.getLastD head) z).Linked := by
    have hpart : (head :: (xs ++ z :: zs)).Nodup := by
      rw [← List.cons_append] at hcells
      exact hcells.of_append_left
    have hends : head :: xs = (head :: xs).dropLast ++ [xs.getLastD head] := by
      rw [← List.getLast_eq_getLastD (List.cons_ne_nil head xs), List.dropLast_append_getLast]
    rw [← List.cons_append, hends] at hpart ⊢
    rw [hends] at hxs
    exact isChain_join hpart hxs hchain
  have hright : (ys ++ [head]).IsChain (l.connect (xs.getLastD head) z).Linked := by
    have hmiddle : z ∉ head :: (xs ++ ys) :=
      fun hmem => hdisjoint hmem (List.mem_cons_of_mem list List.mem_cons_self)
    apply isChain_connect hys
    · rw [List.dropLast_concat]
      exact (getLastD_not_mem hnodup).2
    · intro hmem
      apply hmiddle
      have hin := List.mem_of_mem_tail hmem
      simp only [List.mem_append, List.mem_cons, List.not_mem_nil, or_false] at hin ⊢
      tauto
  have hend : (xs ++ z :: zs).getLastD head = last := by
    rw [← hlast]
    simp [List.getLastD_eq_getLast?, List.getLast?_cons]
  rw [← hend]
  exact ring_connect hcells hleft hright

end Connect

end WorkCode.PointerRing
