import WorkCode.PointerRing
import Mathlib.Data.List.Rotate
import Mathlib.Logic.Function.Iterate

/-!
# The rotation in `list.c`

The pointer operations of `list.h`, on rings of `struct list_head`s embedded in other
structures. `list.c` takes the last entry of a list out and puts it in again at the
front; on an empty list the entry it takes is the head itself, which is deleted from the
ring and added to the ring that it still is.
-/

namespace WorkCode.ListRotation

open PointerRing

variable {w : ℕ}

/-- The structure that the `struct list_head` at `ptr` is a member of. -/
def containerOf (offset ptr : BitVec w) : BitVec w := ptr - offset

def member (offset entry : BitVec w) : BitVec w := entry + offset

def listEntry (offset ptr : BitVec w) : BitVec w := containerOf offset ptr

def listHeadInit (l : Links (BitVec w)) (name : BitVec w) : Links (BitVec w) :=
  (l.setNext name name).setPrev name name

/-- `__list_add`. -/
def listAddBetween (l : Links (BitVec w)) (new prev next : BitVec w) : Links (BitVec w) :=
  let l := l.setPrev next new
  let l := l.setNext new next
  let l := l.setPrev new prev
  l.setNext prev new

def listAdd (l : Links (BitVec w)) (new head : BitVec w) : Links (BitVec w) :=
  listAddBetween l new head (l.next head)

/-- `__list_del`. -/
def listDelBetween (l : Links (BitVec w)) (prev next : BitVec w) : Links (BitVec w) :=
  let l := l.setPrev next prev
  l.setNext prev next

def listDel (l : Links (BitVec w)) (entry : BitVec w) : Links (BitVec w) :=
  listDelBetween l (l.prev entry) (l.next entry)

def listForEachEntry (offset : BitVec w) (l : Links (BitVec w)) (head : BitVec w) (fuel : ℕ) :
    Option (List (BitVec w)) :=
  forEach (member offset) (listEntry offset) l.next head fuel (listEntry offset (l.next head))

/-- `i = list_entry(head.prev, …); list_del(&i->list); list_add(&i->list, &head)`. -/
def rotate (offset : BitVec w) (l : Links (BitVec w)) (head : BitVec w) : Links (BitVec w) :=
  let i := listEntry offset (l.prev head)
  let l := listDel l (member offset i)
  listAdd l (member offset i) head

/-- What is printed: an entry's `i`, an empty line, the addresses of `head` and of the
entry that is moved. -/
inductive Line (w : ℕ)
  | int (i : BitVec 32)
  | blank
  | pointers (head i : BitVec w)
deriving DecidableEq

/-- `main`, with the addresses at which `malloc` finds room. The nodes are filled in but,
the call to `list_add` being commented out, never added. -/
def main (offset head : BitVec w) (malloc : ℕ → BitVec w) (l : Links (BitVec w))
    (ints : BitVec w → BitVec 32) (fuel : ℕ) : Option (List (Line w)) := do
  let l := listHeadInit l head
  let ints := (List.range 10).foldl
    (fun ints j => Function.update ints (malloc j) (BitVec.ofNat 32 j)) ints
  let before ← listForEachEntry offset l head fuel
  let i := listEntry offset (l.prev head)
  let after ← listForEachEntry offset (rotate offset l head) head fuel
  return before.map (fun pos => .int (ints pos)) ++ [.blank, .pointers head i] ++
    after.map (fun pos => .int (ints pos))

def lastFirst {α : Type} (xs : List α) : List α := xs.getLast?.toList ++ xs.dropLast

@[simp] theorem member_listEntry (offset ptr : BitVec w) :
    member offset (listEntry offset ptr) = ptr := BitVec.sub_add_cancel ptr offset

theorem listAddBetween_eq (l : Links (BitVec w)) (new prev next : BitVec w) :
    listAddBetween l new prev next = (l.connect new next).connect prev new := rfl

theorem listDelBetween_eq (l : Links (BitVec w)) (prev next : BitVec w) :
    listDelBetween l prev next = l.connect prev next := rfl

section Lists

variable {α : Type} (xs : List α) (x : α)

@[simp] theorem lastFirst_concat : lastFirst (xs ++ [x]) = x :: xs := by
  simp [lastFirst]

theorem lastFirst_rotate : (lastFirst xs).rotate 1 = xs := by
  rcases List.eq_nil_or_concat xs with rfl | ⟨ys, y, rfl⟩
  · rfl
  · rw [List.concat_eq_append, lastFirst_concat, List.rotate_cons_succ, List.rotate_zero]

@[simp] theorem length_lastFirst : (lastFirst xs).length = xs.length := by
  rw [← List.length_rotate (lastFirst xs) 1, lastFirst_rotate]

theorem lastFirst_iterate_rotate (k : ℕ) : (lastFirst^[k] xs).rotate k = xs := by
  induction k generalizing xs with
  | zero => exact List.rotate_zero xs
  | succ k ih =>
    rw [Function.iterate_succ_apply, ← List.rotate_rotate, ih]
    exact lastFirst_rotate xs

/-- As many moves as there are elements bring every element back to its place. -/
theorem lastFirst_iterate_length : lastFirst^[xs.length] xs = xs := by
  have hlen : (lastFirst^[xs.length] xs).length = xs.length := by
    rw [← List.length_rotate (lastFirst^[xs.length] xs) xs.length, lastFirst_iterate_rotate]
  have hself := List.rotate_length (lastFirst^[xs.length] xs)
  rw [hlen, lastFirst_iterate_rotate] at hself
  exact hself.symm

end Lists

section Rings

variable (offset : BitVec w) {head : BitVec w} {l : Links (BitVec w)} {xs : List (BitVec w)}

theorem listHeadInit_ring (l : Links (BitVec w)) (head : BitVec w) :
    Ring (listHeadInit l head) head [] := ring_nil_iff.mpr (l.linked_connect head head)

theorem listAdd_ring {new : BitVec w} (h : Ring l head xs) (hnew : new ∉ head :: xs) :
    Ring (listAdd l new head) head (new :: xs) := by
  rw [listAdd, listAddBetween_eq, h.linked_out.1]
  rw [← List.nil_append xs] at h hnew
  exact h.insert hnew

theorem listDel_ring {entry : BitVec w} {ys : List (BitVec w)} (h : Ring l head (xs ++ entry :: ys)) :
    Ring (listDel l entry) head (xs ++ ys) := by
  rw [listDel, listDelBetween_eq]
  exact h.remove

theorem rotate_ring (h : Ring l head xs) : Ring (rotate offset l head) head (lastFirst xs) := by
  rw [rotate, member_listEntry]
  rcases List.eq_nil_or_concat xs with rfl | ⟨ys, y, rfl⟩
  · -- the entry is the head itself, which adding it behind itself links to itself again
    have hhead : l.prev head = head := h.linked_in.2
    rw [hhead, listAdd, listAddBetween_eq]
    exact ring_nil_iff.mpr (Links.linked_connect _ head head)
  · rw [List.concat_eq_append] at h ⊢
    have hlast : l.prev head = y := by
      rw [h.linked_in.2]
      exact List.getLastD_concat
    have hout : y ∉ head :: ys := by
      have hnodup := h.nodup
      rw [← List.cons_append] at hnodup
      exact fun hmem => List.disjoint_of_nodup_append hnodup hmem (List.mem_singleton.mpr rfl)
    have hdel := listDel_ring h
    rw [List.append_nil] at hdel
    rw [hlast, lastFirst_concat]
    exact listAdd_ring hdel hout

theorem listForEachEntry_eq (h : Ring l head xs) {fuel : ℕ} (hfuel : xs.length < fuel) :
    listForEachEntry offset l head fuel = some (xs.map (listEntry offset)) :=
  forEach_head (member_listEntry offset) h hfuel

theorem rotate_iterate_ring (h : Ring l head xs) (k : ℕ) :
    Ring ((rotate offset · head)^[k] l) head (lastFirst^[k] xs) := by
  induction k generalizing l xs with
  | zero => exact h
  | succ k ih =>
    rw [Function.iterate_succ_apply, Function.iterate_succ_apply]
    exact ih (rotate_ring offset h)

theorem rotate_round (h : Ring l head xs) :
    Ring ((rotate offset · head)^[xs.length] l) head xs := by
  have hround := rotate_iterate_ring offset h xs.length
  rwa [lastFirst_iterate_length] at hround

/-- `main` rotates an empty list, and prints no number. -/
theorem main_eq (head : BitVec w) (malloc : ℕ → BitVec w) (l : Links (BitVec w))
    (ints : BitVec w → BitVec 32) (fuel : ℕ) :
    main offset head malloc l ints (fuel + 1) = some [.blank, .pointers head (listEntry offset head)] := by
  have hring := listHeadInit_ring l head
  have hbefore := listForEachEntry_eq offset hring (Nat.succ_pos fuel)
  have hafter := listForEachEntry_eq offset (rotate_ring offset hring) (Nat.succ_pos fuel)
  simp only [main, hbefore, hafter, hring.linked_in.2]
  rfl

/-- The step of `list.c` on every well-formed list: the entry taken is the last one, or the
head itself when there is none; the ring is kept, its pointers mutually inverse, and the
traversal visits that entry first. -/
theorem rotate_correct (h : Ring l head xs) :
    member offset (listEntry offset (l.prev head)) = xs.getLastD head ∧
    Ring (rotate offset l head) head (lastFirst xs) ∧
    (∀ a ∈ head :: lastFirst xs,
      (rotate offset l head).prev ((rotate offset l head).next a) = a ∧
      (rotate offset l head).next ((rotate offset l head).prev a) = a) ∧
    ∀ fuel, xs.length < fuel → listForEachEntry offset (rotate offset l head) head fuel =
      some ((lastFirst xs).map (listEntry offset)) := by
  have hring := rotate_ring offset h
  refine ⟨?_, hring, ?_, ?_⟩
  · rw [member_listEntry, h.linked_in.2]
  · intro a ha
    exact hring.inverse ha
  · intro fuel hfuel
    apply listForEachEntry_eq offset hring
    rwa [length_lastFirst]

end Rings

theorem rotate_two_nodes :
    listForEachEntry 4 (rotate 4 ⟨fun a : BitVec 8 => if a = 16 then 32 else if a = 32 then 48 else 16,
      fun a => if a = 16 then 48 else if a = 48 then 32 else 16⟩ 16) 16 3 = some [44, 28] ∧
    listForEachEntry 4 (rotate 4 ⟨fun a : BitVec 8 => a, fun a => a⟩ 16) 16 1 = some [] := by
  constructor
  · refine (@rotate_correct 8 4 16 _ [32, 48] ?_).2.2.2 3 (by decide)
    refine ⟨by decide, ?_⟩
    exact .cons_cons ⟨rfl, rfl⟩ (.cons_cons ⟨rfl, rfl⟩ (.cons_cons ⟨rfl, rfl⟩ (.singleton _)))
  · refine (@rotate_correct 8 4 16 _ [] ?_).2.2.2 1 (by decide)
    exact ring_nil_iff.mpr ⟨rfl, rfl⟩

end WorkCode.ListRotation
