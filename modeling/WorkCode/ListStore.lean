import WorkCode.EventRuns
import WorkCode.ListRotation
import WorkCode.RingSplices

/-!
# The operations of `list.h`

Every operation works on pointers alone. What a sequence of them does is said on lists: a
store has the nodes under each head, and an operation takes lists that share no cell to
lists that share no cell.
-/

namespace WorkCode.ListStore

open EventRuns ListRotation OwnedLists PointerRing

variable {w : ℕ}

def initListHead (l : Links (BitVec w)) (list : BitVec w) : Links (BitVec w) :=
  let l := l.setNext list list
  l.setPrev list list

def listAddTail (l : Links (BitVec w)) (new head : BitVec w) : Links (BitVec w) :=
  listAddBetween l new (l.prev head) head

def listReplace (l : Links (BitVec w)) (old new : BitVec w) : Links (BitVec w) :=
  let l := l.setNext new (l.next old)
  let l := l.setPrev (l.next new) new
  -- when `old` is alone, this reads what the line before has written
  let l := l.setPrev new (l.prev old)
  l.setNext (l.prev new) new

def listReplaceInit (l : Links (BitVec w)) (old new : BitVec w) : Links (BitVec w) :=
  initListHead (listReplace l old new) old

def listDelInit (l : Links (BitVec w)) (entry : BitVec w) : Links (BitVec w) :=
  initListHead (listDelBetween l (l.prev entry) (l.next entry)) entry

def listMove (l : Links (BitVec w)) (list head : BitVec w) : Links (BitVec w) :=
  listAdd (listDelBetween l (l.prev list) (l.next list)) list head

def listMoveTail (l : Links (BitVec w)) (list head : BitVec w) : Links (BitVec w) :=
  listAddTail (listDelBetween l (l.prev list) (l.next list)) list head

def listIsLast (l : Links (BitVec w)) (list head : BitVec w) : Bool := l.next list = head

def listEmpty (l : Links (BitVec w)) (head : BitVec w) : Bool := l.next head = head

/-- `__list_splice`. -/
def listSpliceUnchecked (l : Links (BitVec w)) (list head : BitVec w) : Links (BitVec w) :=
  let first := l.next list
  let last := l.prev list
  let behind := l.next head
  let l := l.setPrev first head
  let l := l.setNext head first
  let l := l.setNext last behind
  l.setPrev behind last

def listSplice (l : Links (BitVec w)) (list head : BitVec w) : Links (BitVec w) :=
  if !listEmpty l list then listSpliceUnchecked l list head else l

def listSpliceInit (l : Links (BitVec w)) (list head : BitVec w) : Links (BitVec w) :=
  if !listEmpty l list then initListHead (listSpliceUnchecked l list head) list else l

def listFirstEntry (offset : BitVec w) (l : Links (BitVec w)) (ptr : BitVec w) : BitVec w :=
  listEntry offset (l.next ptr)

/-- A call of one of the operations, with its arguments in the order of the source. -/
inductive Op (α : Type)
  | init (list : α)
  | add (new head : α)
  | addTail (new head : α)
  | del (entry : α)
  | delInit (entry : α)
  | replace (old new : α)
  | replaceInit (old new : α)
  | move (list head : α)
  | moveTail (list head : α)
  | splice (list head : α)
  | spliceInit (list head : α)

def Op.exec (l : Links (BitVec w)) : Op (BitVec w) → Links (BitVec w)
  | .init list => initListHead l list
  | .add new head => listAdd l new head
  | .addTail new head => listAddTail l new head
  | .del entry => listDel l entry
  | .delInit entry => listDelInit l entry
  | .replace old new => listReplace l old new
  | .replaceInit old new => listReplaceInit l old new
  | .move list head => listMove l list head
  | .moveTail list head => listMoveTail l list head
  | .splice list head => listSplice l list head
  | .spliceInit list head => listSpliceInit l list head

/-- What the operations are for. A list is cut where it is changed: `xs.getLastD head` is the
cell in front of the cut, the head itself when the cut is at the start, and `ys.headD head`
the one behind it. New cells must be loose. -/
inductive Step {α : Type} [DecidableEq α] : Heads α → Op α → Heads α → Prop
  | init {lists : Heads α} {list : α} (hloose : Loose lists list) :
    Step lists (.init list) (put lists list list [])
  | add {lists : Heads α} {new head : α} {xs ys : List α} (hhead : lists head = some (xs ++ ys))
    (hnew : Loose lists new) (hne : new ≠ head) :
    Step lists (.add new (xs.getLastD head)) (put lists new head (xs ++ new :: ys))
  | addTail {lists : Heads α} {new head : α} {xs ys : List α} (hhead : lists head = some (xs ++ ys))
    (hnew : Loose lists new) (hne : new ≠ head) :
    Step lists (.addTail new (ys.headD head)) (put lists new head (xs ++ new :: ys))
  | del {lists : Heads α} {entry head : α} {xs ys : List α}
    (hhead : lists head = some (xs ++ entry :: ys)) :
    Step lists (.del entry) (put lists head head (xs ++ ys))
  | delAlone {lists : Heads α} {entry : α} (hentry : lists entry = some []) :
    Step lists (.del entry) lists
  | delInit {lists : Heads α} {entry head : α} {xs ys : List α}
    (hhead : lists head = some (xs ++ entry :: ys)) :
    Step lists (.delInit entry) (put (put lists head head (xs ++ ys)) entry entry [])
  | delInitAlone {lists : Heads α} {entry : α} (hentry : lists entry = some []) :
    Step lists (.delInit entry) lists
  | replace {lists : Heads α} {old new head : α} {xs ys : List α}
    (hhead : lists head = some (xs ++ old :: ys)) (hnew : Loose lists new) (hne : new ≠ head) :
    Step lists (.replace old new) (put lists new head (xs ++ new :: ys))
  | replaceHead {lists : Heads α} {old new : α} {xs : List α} (hold : lists old = some xs)
    (hnew : Loose lists new) (hne : new ≠ old) :
    Step lists (.replace old new) (put lists old new xs)
  | replaceInit {lists : Heads α} {old new head : α} {xs ys : List α}
    (hhead : lists head = some (xs ++ old :: ys)) (hnew : Loose lists new) (hne : new ≠ head) :
    Step lists (.replaceInit old new) (put (put lists new head (xs ++ new :: ys)) old old [])
  | replaceInitHead {lists : Heads α} {old new : α} {xs : List α} (hold : lists old = some xs)
    (hnew : Loose lists new) (hne : new ≠ old) :
    Step lists (.replaceInit old new) (put (put lists old new xs) old old [])
  | move {lists : Heads α} {list source head : α} {xs ys us vs : List α}
    (hsource : lists source = some (xs ++ list :: ys))
    (hhead : put lists source source (xs ++ ys) head = some (us ++ vs)) :
    Step lists (.move list (us.getLastD head))
      (put (put lists source source (xs ++ ys)) list head (us ++ list :: vs))
  | moveAlone {lists : Heads α} {list head : α} {us vs : List α} (hlist : lists list = some [])
    (hhead : lists head = some (us ++ vs)) (hne : list ≠ head) :
    Step lists (.move list (us.getLastD head)) (put lists list head (us ++ list :: vs))
  | moveTail {lists : Heads α} {list source head : α} {xs ys us vs : List α}
    (hsource : lists source = some (xs ++ list :: ys))
    (hhead : put lists source source (xs ++ ys) head = some (us ++ vs)) :
    Step lists (.moveTail list (vs.headD head))
      (put (put lists source source (xs ++ ys)) list head (us ++ list :: vs))
  | moveTailAlone {lists : Heads α} {list head : α} {us vs : List α} (hlist : lists list = some [])
    (hhead : lists head = some (us ++ vs)) (hne : list ≠ head) :
    Step lists (.moveTail list (vs.headD head)) (put lists list head (us ++ list :: vs))
  | splice {lists : Heads α} {list head z : α} {xs ys zs : List α} (hlist : lists list = some (z :: zs))
    (hhead : lists head = some (xs ++ ys)) (hne : list ≠ head) :
    Step lists (.splice list (xs.getLastD head)) (put lists list head (xs ++ z :: zs ++ ys))
  | spliceEmpty {lists : Heads α} {list head : α} (hlist : lists list = some []) :
    Step lists (.splice list head) lists
  | spliceInit {lists : Heads α} {list head z : α} {xs ys zs : List α}
    (hlist : lists list = some (z :: zs)) (hhead : lists head = some (xs ++ ys)) (hne : list ≠ head) :
    Step lists (.spliceInit list (xs.getLastD head))
      (put (put lists list head (xs ++ z :: zs ++ ys)) list list [])
  | spliceInitEmpty {lists : Heads α} {list head : α} (hlist : lists list = some []) :
    Step lists (.spliceInit list head) lists

section Equations

variable (l : Links (BitVec w))

theorem initListHead_eq (list : BitVec w) : initListHead l list = l.connect list list := rfl

theorem listDel_eq (entry : BitVec w) : listDel l entry = l.connect (l.prev entry) (l.next entry) := rfl

theorem listReplace_eq (old new : BitVec w) : listReplace l old new =
    (l.connect new (l.next old)).connect ((l.connect new (l.next old)).prev old) new := by
  simp only [listReplace, Links.setNext, Links.setPrev, Links.connect, Function.update_self]

theorem listSpliceUnchecked_eq (list head : BitVec w) : listSpliceUnchecked l list head =
    (l.connect head (l.next list)).connect (l.prev list) (l.next head) := rfl

end Equations

section Cells

variable {α : Type} {l : Links α} {head : α} {xs ys : List α}

theorem getLastD_mem (xs ys : List α) (head : α) : xs.getLastD head ∈ head :: (xs ++ ys) := by
  rw [← List.getLast_eq_getLastD (List.cons_ne_nil head xs), ← List.cons_append]
  exact List.mem_append_left ys (List.getLast_mem _)

theorem headD_mem (xs ys : List α) (head : α) : ys.headD head ∈ head :: (xs ++ ys) := by
  cases ys with
  | nil => exact List.mem_cons_self
  | cons y ys => exact List.mem_cons_of_mem head (List.mem_append_right xs List.mem_cons_self)

theorem same_of_connect [DecidableEq α] {m : Links α} {a p q : α} {cells : List α} (h : l.Same m a)
    (ha : a ∉ cells) (hp : p ∈ cells) (hq : q ∈ cells) : l.Same (m.connect p q) a := by
  apply h.trans (m.same_connect _ _)
  · intro heq
    exact ha (heq ▸ hp)
  · intro heq
    exact ha (heq ▸ hq)

end Cells

section Rings

variable {l : Links (BitVec w)} {list new old head entry : BitVec w} {xs ys zs : List (BitVec w)}

theorem nodup_insert (hnodup : (head :: (xs ++ ys)).Nodup) (hnew : new ∉ head :: (xs ++ ys)) :
    (head :: (xs ++ new :: ys)).Nodup := by
  rw [List.mem_cons, not_or] at hnew
  obtain ⟨hhead, happend⟩ := List.nodup_cons.mp hnodup
  have hperm : (xs ++ new :: ys).Perm (new :: (xs ++ ys)) := List.perm_middle
  apply List.nodup_cons.mpr
  constructor
  · rw [hperm.mem_iff, List.mem_cons, not_or]
    exact ⟨Ne.symm hnew.1, hhead⟩
  · rw [hperm.nodup_iff]
    exact List.nodup_cons.mpr ⟨hnew.2, happend⟩

theorem listAddBetween_ring (h : Ring l head (xs ++ ys)) (hnew : new ∉ head :: (xs ++ ys)) :
    Ring (listAddBetween l new (xs.getLastD head) (ys.headD head)) head (xs ++ new :: ys) := by
  rw [listAddBetween_eq]
  exact h.insert hnew

/-- Where `old` has company, the new cell goes where it was. -/
theorem listReplace_ring (h : Ring l head (xs ++ old :: ys)) (hnew : new ∉ head :: (xs ++ old :: ys)) :
    Ring (listReplace l old new) head (xs ++ new :: ys) := by
  obtain ⟨hnodup, hxs, hys, -⟩ := ring_append_iff.mp h
  have hrest : (head :: (xs ++ ys)).Nodup :=
    hnodup.sublist (((List.sublist_cons_self old ys).append_left xs).cons_cons head)
  have hold : old ≠ ys.headD head := by
    intro heq
    have hperm : (head :: (xs ++ old :: ys)).Perm (old :: head :: (xs ++ ys)) :=
      (List.perm_middle.cons head).trans (List.Perm.swap old head (xs ++ ys))
    have hout := (List.nodup_cons.mp (hperm.nodup_iff.mp hnodup)).1
    exact hout (heq ▸ headD_mem xs ys head)
  have hnew' : new ∉ head :: (xs ++ ys) := by
    intro hmem
    exact hnew (((List.sublist_cons_self old ys).append_left xs).cons_cons head |>.subset hmem)
  rw [listReplace_eq, h.linked_behind.1, Links.prev_connect, Function.update_of_ne hold,
    h.linked_before.2]
  apply ring_between (nodup_insert hrest hnew') hxs
  exact hys.tail

/-- "If @old was empty, it will be overwritten": a head hands its whole list to the new one. -/
theorem listReplace_ring_head (h : Ring l old xs) (hnew : new ∉ old :: xs) :
    Ring (listReplace l old new) new xs := by
  cases xs with
  | nil =>
    have hself := (ring_nil_iff.mp h).1
    rw [listReplace_eq, hself, Links.prev_connect, Function.update_self]
    exact ring_nil_iff.mpr (Links.linked_connect _ new new)
  | cons x xs =>
    rw [ring_cons_iff] at h ⊢
    apply listReplace_ring h
    intro hmem
    apply hnew
    simp only [List.mem_cons, List.mem_append, List.not_mem_nil, or_false] at hmem ⊢
    tauto

theorem listEmpty_iff (h : Ring l head xs) : listEmpty l head = true ↔ xs = [] := by
  rw [listEmpty, decide_eq_true_iff, h.linked_out.1]
  cases xs with
  | nil => simp
  | cons x xs =>
    have hne : x ≠ head := by
      intro heq
      exact (List.nodup_cons.mp h.nodup).1 (heq ▸ List.mem_cons_self)
    simp [hne]

theorem listIsLast_iff (h : Ring l head (xs ++ entry :: ys)) :
    listIsLast l entry head = true ↔ ys = [] := by
  rw [listIsLast, decide_eq_true_iff, h.linked_behind.1]
  cases ys with
  | nil => simp
  | cons y ys =>
    have hne : y ≠ head := by
      intro heq
      apply (List.nodup_cons.mp h.nodup).1
      rw [← heq]
      exact List.mem_append_right xs (List.mem_cons_of_mem entry List.mem_cons_self)
    simp [hne]

theorem listSpliceUnchecked_ring {z : BitVec w} (h : Ring l head (xs ++ ys)) (hlist : Ring l list (z :: zs))
    (hdisjoint : (head :: (xs ++ ys)).Disjoint (list :: z :: zs)) :
    Ring (listSpliceUnchecked l list (xs.getLastD head)) head (xs ++ z :: zs ++ ys) := by
  have hcut := (ring_append_iff.mp h).2.2.2.1
  rw [listSpliceUnchecked_eq, hlist.linked_out.1, hlist.linked_in.2, hcut]
  exact h.splice hlist hdisjoint rfl

end Rings

section Store

variable {l : Links (BitVec w)} {lists : Heads (BitVec w)} {list new old head entry : BitVec w}
  {xs ys zs : List (BitVec w)}

theorem not_mem_cells (hhead : lists head = some xs) (hnew : Loose lists new) (hne : new ≠ head) :
    new ∉ head :: xs := by
  intro hmem
  rcases List.mem_cons.mp hmem with heq | hin
  · exact hne heq
  · exact hnew.not_mem hhead hin

theorem owned_init (h : Owned ringShape l lists) (hloose : Loose lists list) :
    Owned ringShape (initListHead l list) (put lists list list []) := by
  apply h.put_self hloose.apart
  · intro a ha
    exact absurd ha List.not_mem_nil
  · intro a ha
    exact same_of_connect ⟨rfl, rfl⟩ ha List.mem_cons_self List.mem_cons_self
  · exact ring_nil_iff.mpr (Links.linked_connect l list list)

theorem owned_addBetween (h : Owned ringShape l lists) (hhead : lists head = some (xs ++ ys))
    (hnew : Loose lists new) (hne : new ≠ head) :
    Owned ringShape (listAddBetween l new (xs.getLastD head) (ys.headD head))
      (put lists new head (xs ++ new :: ys)) := by
  apply h.put hnew.apart (h.apart hhead)
  · intro a ha
    simp only [List.mem_append, List.mem_cons, List.not_mem_nil, or_false] at ha ⊢
    tauto
  · intro a ha ha'
    have hout : a ∉ new :: head :: (xs ++ ys) := by
      rw [List.mem_cons, not_or]
      exact ⟨fun heq => ha (heq ▸ List.mem_cons_self), ha'⟩
    have hlast := List.mem_cons_of_mem new (getLastD_mem xs ys head)
    have hfirst := List.mem_cons_of_mem new (headD_mem xs ys head)
    rw [listAddBetween_eq]
    apply same_of_connect _ hout hlast List.mem_cons_self
    exact same_of_connect ⟨rfl, rfl⟩ hout List.mem_cons_self hfirst
  · exact listAddBetween_ring (h.holds hhead) (not_mem_cells hhead hnew hne)

theorem owned_add (h : Owned ringShape l lists) (hhead : lists head = some (xs ++ ys))
    (hnew : Loose lists new) (hne : new ≠ head) :
    Owned ringShape (listAdd l new (xs.getLastD head)) (put lists new head (xs ++ new :: ys)) := by
  have hcut := (ring_append_iff.mp (h.holds hhead)).2.2.2.1
  rw [listAdd, hcut]
  exact owned_addBetween h hhead hnew hne

theorem owned_addTail (h : Owned ringShape l lists) (hhead : lists head = some (xs ++ ys))
    (hnew : Loose lists new) (hne : new ≠ head) :
    Owned ringShape (listAddTail l new (ys.headD head)) (put lists new head (xs ++ new :: ys)) := by
  have hcut := (ring_append_iff.mp (h.holds hhead)).2.2.2.2
  rw [listAddTail, hcut]
  exact owned_addBetween h hhead hnew hne

theorem owned_del (h : Owned ringShape l lists) (hhead : lists head = some (xs ++ entry :: ys)) :
    Owned ringShape (listDel l entry) (put lists head head (xs ++ ys)) := by
  have hsub : (xs ++ ys).Sublist (xs ++ entry :: ys) := (List.sublist_cons_self entry ys).append_left xs
  have hring : Ring l head (xs ++ entry :: ys) := h.holds hhead
  apply h.put_self (h.apart hhead)
  · intro a ha
    exact List.mem_cons_of_mem head (hsub.subset ha)
  · intro a ha
    have hout : a ∉ head :: (xs ++ ys) := fun hmem => ha ((hsub.cons_cons head).subset hmem)
    rw [listDel_eq, hring.linked_before.2, hring.linked_behind.1]
    exact same_of_connect ⟨rfl, rfl⟩ hout (getLastD_mem xs ys head) (headD_mem xs ys head)
  · exact listDel_ring hring

theorem owned_delAlone (h : Owned ringShape l lists) (hentry : lists entry = some []) :
    Owned ringShape (listDel l entry) lists := by
  obtain ⟨hnext, hprev⟩ := ring_nil_iff.mp (h.holds hentry)
  rw [listDel_eq, hnext, hprev, ← initListHead_eq, ← put_same lists hentry]
  exact owned_init h (h.loose_of_nil hentry)

theorem loose_del (h : Owned ringShape l lists) (hhead : lists head = some (xs ++ entry :: ys)) :
    Loose (put lists head head (xs ++ ys)) entry ∧ entry ≠ head := by
  have hnodup := (h.holds hhead).nodup
  have hne : entry ≠ head := by
    intro heq
    apply (List.nodup_cons.mp hnodup).1
    rw [← heq]
    exact List.mem_append_right xs List.mem_cons_self
  have hout := (List.nodup_cons.mp (List.nodup_middle.mp (List.nodup_cons.mp hnodup).2)).1
  exact ⟨h.loose_put hhead (List.mem_append_right xs List.mem_cons_self) hne hout, hne⟩

theorem ne_of_move (h : Owned ringShape l lists) (hhead : lists head = some (xs ++ entry :: ys))
    {other : BitVec w} (hother : put lists head head (xs ++ ys) other = some zs) : entry ≠ other := by
  obtain ⟨hloose, hne⟩ := loose_del h hhead
  rcases put_eq_some hother with ⟨rfl, -⟩ | ⟨-, hne', hold⟩
  · exact hne
  · intro heq
    have hmem : entry ∈ head :: (xs ++ entry :: ys) :=
      List.mem_cons_of_mem head (List.mem_append_right xs List.mem_cons_self)
    exact h.disjoint hhead hold (Ne.symm hne') hmem (heq ▸ List.mem_cons_self)

theorem owned_delInit (h : Owned ringShape l lists) (hhead : lists head = some (xs ++ entry :: ys)) :
    Owned ringShape (listDelInit l entry) (put (put lists head head (xs ++ ys)) entry entry []) :=
  owned_init (owned_del h hhead) (loose_del h hhead).1

theorem owned_delInitAlone (h : Owned ringShape l lists) (hentry : lists entry = some []) :
    Owned ringShape (listDelInit l entry) lists := by
  rw [← put_same lists hentry]
  exact owned_init (owned_delAlone h hentry) (h.loose_of_nil hentry)

theorem same_listReplace {a : BitVec w} {cells : List (BitVec w)} (hnext : l.next old ∈ cells)
    (hprev : l.prev old ∈ cells) (hne : a ≠ new) (ha : a ∉ cells) : l.Same (listReplace l old new) a := by
  have hout : a ∉ new :: cells := by
    rw [List.mem_cons, not_or]
    exact ⟨hne, ha⟩
  have hlast : (l.connect new (l.next old)).prev old ∈ new :: cells := by
    rw [Links.prev_connect, Function.update_apply]
    split
    · exact List.mem_cons_self
    · exact List.mem_cons_of_mem new hprev
  rw [listReplace_eq]
  apply same_of_connect _ hout hlast List.mem_cons_self
  exact same_of_connect ⟨rfl, rfl⟩ hout List.mem_cons_self (List.mem_cons_of_mem new hnext)

theorem owned_replace (h : Owned ringShape l lists) (hhead : lists head = some (xs ++ old :: ys))
    (hnew : Loose lists new) (hne : new ≠ head) :
    Owned ringShape (listReplace l old new) (put lists new head (xs ++ new :: ys)) := by
  have hring : Ring l head (xs ++ old :: ys) := h.holds hhead
  apply h.put hnew.apart (h.apart hhead)
  · intro a ha
    simp only [List.mem_append, List.mem_cons, List.not_mem_nil, or_false] at ha ⊢
    tauto
  · intro a ha ha'
    apply same_listReplace _ _ (fun heq => ha (List.mem_singleton.mpr heq)) ha'
    · rw [hring.linked_behind.1]
      have hmem := headD_mem (xs ++ [old]) ys head
      rwa [List.append_assoc] at hmem
    · rw [hring.linked_before.2]
      exact getLastD_mem xs (old :: ys) head
  · exact listReplace_ring hring (not_mem_cells hhead hnew hne)

theorem owned_replaceHead (h : Owned ringShape l lists) (hold : lists old = some xs)
    (hnew : Loose lists new) (hne : new ≠ old) :
    Owned ringShape (listReplace l old new) (put lists old new xs) := by
  have hring : Ring l old xs := h.holds hold
  apply h.put (h.apart hold) hnew.apart
  · intro a ha
    exact .inl (List.mem_cons_of_mem old ha)
  · intro a ha ha'
    apply same_listReplace _ _ (fun heq => ha' (List.mem_singleton.mpr heq)) ha
    · rw [hring.linked_out.1]
      exact headD_mem [] xs old
    · rw [hring.linked_in.2]
      have hmem := getLastD_mem xs [] old
      rwa [List.append_nil] at hmem
  · exact listReplace_ring_head hring (not_mem_cells hold hnew hne)

theorem loose_replace (h : Owned ringShape l lists) (hhead : lists head = some (xs ++ old :: ys))
    (hnew : Loose lists new) : Loose (put lists new head (xs ++ new :: ys)) old := by
  obtain ⟨hhead', happend⟩ := List.nodup_cons.mp (h.holds hhead).nodup
  have hmem : old ∈ xs ++ old :: ys := List.mem_append_right xs List.mem_cons_self
  apply h.loose_put hhead hmem (fun heq => hhead' (heq ▸ hmem))
  intro hin
  rcases List.mem_cons.mp (List.perm_middle.mem_iff.mp hin) with heq | hrest
  · exact hnew.not_mem hhead (heq ▸ hmem)
  · exact (List.nodup_cons.mp (List.nodup_middle.mp happend)).1 hrest

theorem owned_splice {z : BitVec w} (h : Owned ringShape l lists) (hlist : lists list = some (z :: zs))
    (hhead : lists head = some (xs ++ ys)) (hne : list ≠ head) :
    Owned ringShape (listSpliceUnchecked l list (xs.getLastD head))
      (put lists list head (xs ++ z :: zs ++ ys)) := by
  have hring : Ring l head (xs ++ ys) := h.holds hhead
  have hring' : Ring l list (z :: zs) := h.holds hlist
  apply h.put (h.apart hlist) (h.apart hhead)
  · intro a ha
    simp only [List.mem_append, List.mem_cons] at ha ⊢
    tauto
  · intro a ha ha'
    have hout : a ∉ (list :: z :: zs) ++ (head :: (xs ++ ys)) := by
      rw [List.mem_append, not_or]
      exact ⟨ha, ha'⟩
    have hlast := getLastD_mem (z :: zs) [] list
    rw [List.append_nil] at hlast
    rw [listSpliceUnchecked_eq, hring'.linked_out.1, hring'.linked_in.2,
      (ring_append_iff.mp hring).2.2.2.1]
    apply same_of_connect _ hout (List.mem_append_left _ hlast) (List.mem_append_right _ (headD_mem xs ys head))
    apply same_of_connect ⟨rfl, rfl⟩ hout (List.mem_append_right _ (getLastD_mem xs ys head))
    exact List.mem_append_left _ (List.mem_cons_of_mem list List.mem_cons_self)
  · exact listSpliceUnchecked_ring hring hring' (h.disjoint hhead hlist (Ne.symm hne))

theorem owned_listSplice {z : BitVec w} (h : Owned ringShape l lists) (hlist : lists list = some (z :: zs))
    (hhead : lists head = some (xs ++ ys)) (hne : list ≠ head) :
    Owned ringShape (listSplice l list (xs.getLastD head)) (put lists list head (xs ++ z :: zs ++ ys)) := by
  have hfull : listEmpty l list = false := by
    rw [← Bool.not_eq_true, listEmpty_iff (h.holds hlist)]
    exact List.cons_ne_nil z zs
  rw [listSplice, hfull]
  exact owned_splice h hlist hhead hne

theorem owned_listSpliceInit {z : BitVec w} (h : Owned ringShape l lists)
    (hlist : lists list = some (z :: zs)) (hhead : lists head = some (xs ++ ys)) (hne : list ≠ head) :
    Owned ringShape (listSpliceInit l list (xs.getLastD head))
      (put (put lists list head (xs ++ z :: zs ++ ys)) list list []) := by
  have hfull : listEmpty l list = false := by
    rw [← Bool.not_eq_true, listEmpty_iff (h.holds hlist)]
    exact List.cons_ne_nil z zs
  rw [listSpliceInit, hfull]
  apply owned_init (owned_splice h hlist hhead hne)
  apply h.loose_gone hlist hne
  intro hmem
  have hout := (List.nodup_cons.mp (h.holds hlist).nodup).1
  have hdisjoint := h.disjoint hlist hhead hne List.mem_cons_self
  simp only [List.mem_append, List.mem_cons] at hmem hdisjoint hout
  tauto

end Store

/-- What one operation does to the pointers is what its step does to the lists. -/
theorem step_refines (l : Links (BitVec w)) (lists : Heads (BitVec w)) (op : Op (BitVec w))
    (lists' : Heads (BitVec w)) (h : Owned ringShape l lists) (hstep : Step lists op lists') :
    Owned ringShape (op.exec l) lists' := by
  cases hstep with
  | init hloose => exact owned_init h hloose
  | add hhead hnew hne => exact owned_add h hhead hnew hne
  | addTail hhead hnew hne => exact owned_addTail h hhead hnew hne
  | del hhead => exact owned_del h hhead
  | delAlone hentry => exact owned_delAlone h hentry
  | delInit hhead => exact owned_delInit h hhead
  | delInitAlone hentry => exact owned_delInitAlone h hentry
  | replace hhead hnew hne => exact owned_replace h hhead hnew hne
  | replaceHead hold hnew hne => exact owned_replaceHead h hold hnew hne
  | replaceInit hhead hnew hne => exact owned_init (owned_replace h hhead hnew hne) (loose_replace h hhead hnew)
  | replaceInitHead hold hnew hne =>
    apply owned_init (owned_replaceHead h hold hnew hne)
    exact h.loose_gone hold (Ne.symm hne) (List.nodup_cons.mp (h.holds hold).nodup).1
  | move hsource hhead =>
    obtain ⟨hloose, -⟩ := loose_del h hsource
    exact owned_add (owned_del h hsource) hhead hloose (ne_of_move h hsource hhead)
  | moveAlone hlist hhead hne =>
    exact owned_add (owned_delAlone h hlist) hhead (h.loose_of_nil hlist) hne
  | moveTail hsource hhead =>
    obtain ⟨hloose, -⟩ := loose_del h hsource
    exact owned_addTail (owned_del h hsource) hhead hloose (ne_of_move h hsource hhead)
  | moveTailAlone hlist hhead hne =>
    exact owned_addTail (owned_delAlone h hlist) hhead (h.loose_of_nil hlist) hne
  | splice hlist hhead hne => exact owned_listSplice h hlist hhead hne
  | spliceEmpty hlist =>
    have hempty := (listEmpty_iff (h.holds hlist)).mpr rfl
    rw [Op.exec, listSplice, hempty]
    exact h
  | spliceInit hlist hhead hne => exact owned_listSpliceInit h hlist hhead hne
  | spliceInitEmpty hlist =>
    have hempty := (listEmpty_iff (h.holds hlist)).mpr rfl
    rw [Op.exec, listSpliceInit, hempty]
    exact h

/-- Any sequence of operations whose arguments are as they should be keeps all lists well
formed, and leaves in each of them the nodes that it should. -/
theorem run_refines {l : Links (BitVec w)} {lists lists' : Heads (BitVec w)} {ops : List (Op (BitVec w))}
    (h : Owned ringShape l lists) (hruns : Runs Step lists ops lists') :
    Owned ringShape (ops.foldl Op.exec l) lists' :=
  simulation_foldl step_refines h hruns

theorem runs_two_nodes : Runs Step (fun _ : BitVec 8 => none) [.init 16, .add 32 16, .addTail 48 16]
    (put (put (put (fun _ => none) 16 16 []) 32 16 [32]) 48 16 [32, 48]) := by
  have hthird : Loose (put (fun _ => none) 16 16 []) (48 : BitVec 8) := (loose_none 48).put (by decide)
  apply Runs.cons (Step.init (loose_none 16))
  apply Runs.cons (@Step.add _ _ _ 32 16 [] [] (put_head ..) ((loose_none 32).put (by decide)) (by decide))
  apply Runs.cons (@Step.addTail _ _ _ 48 16 [32] [] (put_head ..) (hthird.put (by decide)) (by decide))
  exact Runs.nil _

theorem run_refines_two_nodes :
    Owned ringShape ([Op.init 16, .add 32 16, .addTail 48 16].foldl Op.exec ⟨fun a : BitVec 8 => a, fun a => a⟩)
      (put (put (put (fun _ => none) 16 16 []) 32 16 [32]) 48 16 [32, 48]) :=
  run_refines (owned_none ringShape _) runs_two_nodes

end WorkCode.ListStore
