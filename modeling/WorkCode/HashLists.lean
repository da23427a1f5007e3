import WorkCode.EventRuns
import WorkCode.SlotChains

/-!
# The hash lists of `list.h`

"Double linked lists with a single pointer list head": a node's `pprev` is the address of the
pointer that points to it. `next` being the first member of a node, and `first` the only one
of a head, that pointer is named by the node or the head it is in. Operations that write
through a null `pprev` have no result.
-/

namespace WorkCode.HashLists

open EventRuns OwnedLists SlotChains

variable {α : Type} [DecidableEq α]

def initHlistHead (s : Slots α) (ptr : α) : Slots α := s.setNext ptr none

def initHlistNode (s : Slots α) (h : α) : Slots α :=
  let s := s.setNext h none
  s.setPprev h none

def hlistUnhashed (s : Slots α) (h : α) : Bool := (s.pprev h).isNone

/-- `__hlist_del`. -/
def hlistDelLinked (s : Slots α) (n : α) : Option (Slots α) :=
  let next := s.next n
  (s.pprev n).map fun pprev =>
    let s := s.setNext pprev next
    match next with
    | none => s
    | some next => s.setPprev next (some pprev)

def hlistDel (s : Slots α) (n : α) : Option (Slots α) := hlistDelLinked s n

def hlistDelInit (s : Slots α) (n : α) : Option (Slots α) :=
  if !hlistUnhashed s n then (hlistDelLinked s n).map (initHlistNode · n) else some s

def hlistAddHead (s : Slots α) (n h : α) : Slots α :=
  let first := s.next h
  let s := s.setNext n first
  let s := match first with
    | none => s
    | some first => s.setPprev first (some n)
  let s := s.setNext h (some n)
  s.setPprev n (some h)

def hlistAddBefore (s : Slots α) (n next : α) : Option (Slots α) :=
  let s := s.setPprev n (s.pprev next)
  let s := s.setNext n (some next)
  let s := s.setPprev next (some n)
  (s.pprev n).map fun pprev => s.setNext pprev (some n)

def hlistAddAfter (s : Slots α) (n next : α) : Slots α :=
  let s := s.setNext next (s.next n)
  let s := s.setNext n (some next)
  let s := s.setPprev next (some n)
  match s.next next with
  | none => s
  | some behind => s.setPprev behind (some next)

/-- `hlist_for_each_safe` around a body that leaves its `n` alone, as the macro does: it is not
set anywhere, and `pos` becomes what it was before. -/
def visitSafe (body : α → Slots α → Option (Slots α)) (n : Option α) : ℕ → Slots α → Option α →
    Option (List α × Slots α)
  | 0, _, _ => none
  | _ + 1, s, none => some ([], s)
  | fuel + 1, s, some pos => do
    let s ← body pos s
    let (visited, s) ← visitSafe body n fuel s n
    return (pos :: visited, s)

def hlistForEachSafe (s : Slots α) (body : α → Slots α → Option (Slots α)) (n : Option α) (head : α)
    (fuel : ℕ) : Option (List α × Slots α) := visitSafe body n fuel s (s.next head)

/-- `hlist_for_each_entry_safe`, which sets `n` where it tests `pos`. -/
def visitEntriesSafe (body : α → Slots α → Option (Slots α)) : ℕ → Slots α → Option α →
    Option (List α × Slots α)
  | 0, _, _ => none
  | _ + 1, s, none => some ([], s)
  | fuel + 1, s, some pos => do
    let n := s.next pos
    let s ← body pos s
    let (visited, s) ← visitEntriesSafe body fuel s n
    return (pos :: visited, s)

def hlistForEachEntrySafe (s : Slots α) (body : α → Slots α → Option (Slots α)) (head : α) (fuel : ℕ) :
    Option (List α × Slots α) := visitEntriesSafe body fuel s (s.next head)

/-- A call of one of the operations, with its arguments in the order of the source. -/
inductive Op (α : Type)
  | initHead (ptr : α)
  | initNode (h : α)
  | addHead (n h : α)
  | addBefore (n next : α)
  | addAfter (n next : α)
  | del (n : α)
  | delInit (n : α)

def exec (s : Slots α) : Op α → Option (Slots α)
  | .initHead ptr => some (initHlistHead s ptr)
  | .initNode h => some (initHlistNode s h)
  | .addHead n h => some (hlistAddHead s n h)
  | .addBefore n next => hlistAddBefore s n next
  | .addAfter n next => some (hlistAddAfter s n next)
  | .del n => hlistDel s n
  | .delInit n => hlistDelInit s n

/-- What the operations are for: the nodes under each head, and the nodes of which
`hlist_unhashed` tells whether they are in a list. -/
structure Table (α : Type) where
  lists : Heads α
  nodes : α → Prop

/-- A cell that is in no list and no head. -/
def Table.Outside (t : Table α) (a : α) : Prop := ∀ head xs, t.lists head = some xs → a ∉ head :: xs

def Table.insert (t : Table α) (n head : α) (zs : List α) : Table α :=
  ⟨put t.lists n head zs, fun a => a = n ∨ t.nodes a⟩

inductive Step : Table α → Op α → Table α → Prop
  | initHead {t : Table α} {ptr : α} (hout : t.Outside ptr) (hnode : ¬t.nodes ptr) :
    Step t (.initHead ptr) ⟨put t.lists ptr ptr [], t.nodes⟩
  | initNode {t : Table α} {h : α} (hout : t.Outside h) :
    Step t (.initNode h) ⟨t.lists, fun a => a = h ∨ t.nodes a⟩
  | addHead {t : Table α} {n head : α} {xs : List α} (hhead : t.lists head = some xs) (hout : t.Outside n) :
    Step t (.addHead n head) (t.insert n head (n :: xs))
  | addBefore {t : Table α} {n next head : α} {xs ys : List α}
    (hhead : t.lists head = some (xs ++ next :: ys)) (hout : t.Outside n) :
    Step t (.addBefore n next) (t.insert n head (xs ++ n :: next :: ys))
  | addAfter {t : Table α} {n next head : α} {xs ys : List α}
    (hhead : t.lists head = some (xs ++ n :: ys)) (hout : t.Outside next) :
    Step t (.addAfter n next) (t.insert next head (xs ++ n :: next :: ys))
  | del {t : Table α} {n head : α} {xs ys : List α} (hhead : t.lists head = some (xs ++ n :: ys)) :
    Step t (.del n) ⟨put t.lists head head (xs ++ ys), fun a => a ≠ n ∧ t.nodes a⟩
  | delInit {t : Table α} {n head : α} {xs ys : List α} (hhead : t.lists head = some (xs ++ n :: ys)) :
    Step t (.delInit n) ⟨put t.lists head head (xs ++ ys), t.nodes⟩
  | delInitUnhashed {t : Table α} {n : α} (hnode : t.nodes n)
    (hout : ∀ head xs, t.lists head = some xs → n ∉ xs) : Step t (.delInit n) t

/-- The pointers hold a table: the lists share no cell, and a known node that is in none of
them says so. -/
structure Represents (s : Slots α) (t : Table α) : Prop where
  owned : Owned hungShape s t.lists
  known : ∀ head xs n, t.lists head = some xs → n ∈ xs → t.nodes n
  headless : ∀ n, t.nodes n → t.lists n = none
  unhashed : ∀ n, t.nodes n → (∀ head xs, t.lists head = some xs → n ∉ xs) → s.pprev n = none

variable {s s' : Slots α} {t : Table α} {head n next : α} {xs ys : List α}

section Equations

theorem hlistDelLinked_eq {p : α} (h : s.pprev n = some p) :
    hlistDelLinked s n = some (s.attach p (s.next n)) := by
  rw [hlistDelLinked, h]
  cases s.next n <;> rfl

theorem hlistAddHead_eq (s : Slots α) (n head : α) :
    hlistAddHead s n head = (s.attach n (s.next head)).attach head (some n) := by
  rw [hlistAddHead]
  cases s.next head <;> rfl

theorem hlistAddBefore_eq {p : α} (hne : n ≠ next) (h : s.pprev next = some p) :
    hlistAddBefore s n next = some ((s.attach n (some next)).attach p (some n)) := by
  simp only [hlistAddBefore, Slots.setPprev, Slots.setNext, Slots.attach, h,
    Function.update_of_ne hne, Function.update_self, Option.map_some]
  rw [Function.update_comm hne]

theorem hlistAddAfter_eq (s : Slots α) (hne : n ≠ next) (hout : s.next n ≠ some next) :
    hlistAddAfter s n next = (s.attach next (s.next n)).attach n (some next) := by
  simp only [hlistAddAfter, Slots.setPprev, Slots.setNext, Function.update_of_ne (Ne.symm hne),
    Function.update_self]
  cases hbehind : s.next n with
  | none => rfl
  | some behind =>
    have hother : behind ≠ next := by
      intro heq
      exact hout (heq ▸ hbehind)
    simp only [Slots.attach, Slots.setPprev, Slots.setNext]
    rw [Function.update_comm hother]

end Equations

section Steps

omit [DecidableEq α] in
theorem Table.Outside.apart (h : t.Outside n) : Apart t.lists n [] := by
  intro other ys hother hne a ha hmem
  rw [List.mem_singleton.mp ha] at hmem
  exact h other ys hother hmem

theorem represents_init (h : Represents s t) (hout : t.Outside n) (hnode : ¬t.nodes n) :
    Represents (initHlistHead s n) ⟨put t.lists n n [], t.nodes⟩ := by
  constructor
  · apply h.owned.put_self hout.apart
    · intro a ha
      exact absurd ha List.not_mem_nil
    · intro a ha
      exact ⟨Function.update_of_ne (fun heq => ha (List.mem_singleton.mpr heq)) _ _, rfl⟩
    · exact ⟨List.nodup_singleton n, List.IsChain.singleton n, Function.update_self ..⟩
  · intro head xs a hhead ha
    rcases put_eq_some hhead with ⟨-, rfl⟩ | ⟨-, -, hold⟩
    · exact absurd ha List.not_mem_nil
    · exact h.known head xs a hold ha
  · intro a ha
    have hne : a ≠ n := fun heq => hnode (heq ▸ ha)
    exact (put_of_ne t.lists hne hne _).trans (h.headless a ha)
  · intro a ha hin
    apply h.unhashed a ha
    intro head xs hhead
    apply hin head xs
    have hne : head ≠ n := by
      intro heq
      exact hout head xs hhead (heq ▸ List.mem_cons_self)
    exact (put_of_ne t.lists hne hne _).trans hhead

theorem represents_initNode (h : Represents s t) (hout : t.Outside n) :
    Represents (initHlistNode s n) ⟨t.lists, fun a => a = n ∨ t.nodes a⟩ := by
  constructor
  · apply h.owned.congr
    intro head xs hhead a ha
    have hne : a ≠ n := by
      intro heq
      exact hout head xs hhead (heq ▸ ha)
    exact ⟨Function.update_of_ne hne _ _, Function.update_of_ne hne _ _⟩
  · intro head xs a hhead ha
    exact .inr (h.known head xs a hhead ha)
  · intro a ha
    rcases ha with rfl | hnode
    · by_contra hsome
      obtain ⟨xs, hxs⟩ := Option.ne_none_iff_exists'.mp hsome
      exact hout a xs hxs List.mem_cons_self
    · exact h.headless a hnode
  · intro a ha hin
    by_cases heq : a = n
    · rw [heq]
      exact Function.update_self ..
    · rcases ha with hn | hnode
      · exact absurd hn heq
      · have hold := h.unhashed a hnode hin
        rw [← hold]
        exact Function.update_of_ne heq _ _

omit [DecidableEq α] in
theorem Represents.ne_head {a : α} (h : Represents s t) (hnode : t.nodes a) (hhead : t.lists head = some xs) :
    a ≠ head := by
  intro heq
  have hnone := h.headless a hnode
  rw [heq, hhead] at hnone
  cases hnone

theorem represents_insert (h : Represents s t) (hhead : t.lists head = some (xs ++ ys)) (hout : t.Outside n) :
    Represents ((s.attach n ys.head?).attach (xs.getLastD head) (some n)) (t.insert n head (xs ++ n :: ys)) := by
  have hn := hout head _ hhead
  have hne : n ≠ head := fun heq => hn (heq ▸ List.mem_cons_self)
  have hlast : xs.getLastD head ∈ head :: (xs ++ ys) := by
    rw [← List.cons_append]
    exact List.mem_append_left ys (getLastD_mem_cons xs head)
  have hfirst : ∀ {a}, ys.head? = some a → a ∈ xs ++ ys := by
    intro a ha
    exact List.mem_append_right xs (List.mem_of_mem_head? ha)
  constructor
  · apply h.owned.put hout.apart (h.owned.apart hhead)
    · intro a ha
      simp only [List.mem_append, List.mem_cons, List.not_mem_nil, or_false] at ha ⊢
      tauto
    · intro a ha ha'
      have hane : n ≠ a := fun heq => ha (List.mem_singleton.mpr heq.symm)
      have hsame : s.Same (s.attach n ys.head?) a := by
        apply Slots.Same.attach ⟨rfl, rfl⟩ (Ne.symm hane)
        intro heq
        exact ha' (List.mem_cons_of_mem head (hfirst heq))
      apply hsame.attach
      · intro heq
        exact ha' (heq ▸ hlast)
      · intro heq
        exact hane (Option.some.inj heq)
    · exact (h.owned.holds hhead).insert hn
  · intro other zs a hother ha
    rcases put_eq_some hother with ⟨-, rfl⟩ | ⟨-, -, hold⟩
    · rcases List.mem_cons.mp (List.perm_middle.mem_iff.mp ha) with heq | hin
      · exact .inl heq
      · exact .inr (h.known head _ a hhead hin)
    · exact .inr (h.known other zs a hold ha)
  · intro a ha
    by_cases heq : a = n
    · rw [heq]
      exact put_gone t.lists hne _
    · rcases ha with hn' | hnode
      · exact absurd hn' heq
      · exact (put_of_ne t.lists heq (h.ne_head hnode hhead) _).trans (h.headless a hnode)
  · intro a ha hin
    have hnew := hin head _ (put_head ..)
    have hane : a ≠ n := fun heq => hnew (heq ▸ List.mem_append_right xs List.mem_cons_self)
    have hold : ∀ other zs, t.lists other = some zs → a ∉ zs := by
      intro other zs hother hmem
      by_cases heq : other = head
      · rw [heq, hhead] at hother
        cases hother
        exact hnew (List.perm_middle.mem_iff.mpr (List.mem_cons_of_mem n hmem))
      · have hon : other ≠ n := fun heq' => hout other zs hother (heq' ▸ List.mem_cons_self)
        exact hin other zs ((put_of_ne t.lists hon heq _).trans hother) hmem
    rcases ha with hn' | hnode
    · exact absurd hn' hane
    · rw [Slots.pprev_attach_of_ne _ _ (fun heq => hane (Option.some.inj heq).symm),
        Slots.pprev_attach_of_ne _ _ (fun heq => hold head _ hhead (hfirst heq))]
      exact h.unhashed a hnode hold

theorem represents_remove (h : Represents s t) (hhead : t.lists head = some (xs ++ n :: ys)) :
    Represents (s.attach (xs.getLastD head) ys.head?)
      ⟨put t.lists head head (xs ++ ys), fun a => a ≠ n ∧ t.nodes a⟩ := by
  have hsub : (xs ++ ys).Sublist (xs ++ n :: ys) := (List.sublist_cons_self n ys).append_left xs
  have hnodup := (h.owned.holds hhead).nodup
  have hlast : xs.getLastD head ∈ head :: (xs ++ n :: ys) := by
    rw [← List.cons_append]
    exact List.mem_append_left _ (getLastD_mem_cons xs head)
  have hfirst : ∀ {a}, ys.head? = some a → a ∈ xs ++ n :: ys := by
    intro a ha
    exact List.mem_append_right xs (List.mem_cons_of_mem n (List.mem_of_mem_head? ha))
  constructor
  · apply h.owned.put_self (h.owned.apart hhead)
    · intro a ha
      exact List.mem_cons_of_mem head (hsub.subset ha)
    · intro a ha
      apply Slots.Same.attach ⟨rfl, rfl⟩
      · intro heq
        exact ha (heq ▸ hlast)
      · intro heq
        exact ha (List.mem_cons_of_mem head (hfirst heq))
    · exact (h.owned.holds hhead).remove
  · intro other zs a hother ha
    rcases put_eq_some hother with ⟨-, rfl⟩ | ⟨-, hne', hold⟩
    · refine ⟨?_, h.known head _ a hhead (hsub.subset ha)⟩
      intro heq
      rw [heq] at ha
      exact (List.nodup_cons.mp (List.nodup_middle.mp (List.nodup_cons.mp hnodup).2)).1 ha
    · refine ⟨?_, h.known other zs a hold ha⟩
      intro heq
      rw [heq] at ha
      have hmem : n ∈ head :: (xs ++ n :: ys) :=
        List.mem_cons_of_mem head (List.mem_append_right xs List.mem_cons_self)
      exact h.owned.disjoint hhead hold (Ne.symm hne') hmem (List.mem_cons_of_mem other ha)
  · intro a ha
    have hane := h.ne_head ha.2 hhead
    exact (put_of_ne t.lists hane hane _).trans (h.headless a ha.2)
  · intro a ha hin
    have hold : ∀ other zs, t.lists other = some zs → a ∉ zs := by
      intro other zs hother hmem
      by_cases heq : other = head
      · rw [heq, hhead] at hother
        cases hother
        rcases List.mem_cons.mp (List.perm_middle.mem_iff.mp hmem) with heq' | hin'
        · exact ha.1 heq'
        · exact hin head _ (put_head ..) hin'
      · exact hin other zs ((put_of_ne t.lists heq heq _).trans hother) hmem
    rw [Slots.pprev_attach_of_ne _ _ (fun heq => hold head _ hhead (hfirst heq))]
    exact h.unhashed a ha.2 hold

theorem outside_remove (h : Represents s t) (hhead : t.lists head = some (xs ++ n :: ys)) :
    Table.Outside ⟨put t.lists head head (xs ++ ys), fun a => a ≠ n ∧ t.nodes a⟩ n := by
  have hmem : n ∈ xs ++ n :: ys := List.mem_append_right xs List.mem_cons_self
  have hnone := h.headless n (h.known head _ n hhead hmem)
  intro other zs hother hin
  rcases List.mem_cons.mp hin with heq | hin'
  · rcases put_eq_some hother with ⟨hother', -⟩ | ⟨-, -, hold⟩
    · rw [heq, hother', hhead] at hnone
      cases hnone
    · rw [heq, hold] at hnone
      cases hnone
  · exact ((represents_remove h hhead).known other zs n hother hin').1 rfl

theorem hlistDelLinked_of_mem (h : Represents s t) (hhead : t.lists head = some (xs ++ n :: ys)) :
    hlistDelLinked s n = some (s.attach (xs.getLastD head) ys.head?) := by
  have hhung : Hung s head (xs ++ n :: ys) := h.owned.holds hhead
  rw [hlistDelLinked_eq hhung.pprev_eq, hhung.next_node]

theorem delInit_of_mem (h : Represents s t) (hhead : t.lists head = some (xs ++ n :: ys)) :
    ∃ s', hlistDelInit s n = some s' ∧ Represents s' ⟨put t.lists head head (xs ++ ys), t.nodes⟩ := by
  have hhung : Hung s head (xs ++ n :: ys) := h.owned.holds hhead
  have hhashed : hlistUnhashed s n = false := by
    rw [hlistUnhashed, hhung.pprev_eq]
    rfl
  have hnew : Represents (initHlistNode (s.attach (xs.getLastD head) ys.head?) n)
      ⟨put t.lists head head (xs ++ ys), fun a => a = n ∨ a ≠ n ∧ t.nodes a⟩ :=
    represents_initNode (represents_remove h hhead) (outside_remove h hhead)
  -- the node is known again, being unhashed
  have hnodes : (fun a => a = n ∨ a ≠ n ∧ t.nodes a) = t.nodes := by
    funext a
    by_cases heq : a = n
    · have hn := h.known head _ n hhead (List.mem_append_right xs List.mem_cons_self)
      simp [heq, hn]
    · simp [heq]
  rw [hnodes] at hnew
  refine ⟨_, ?_, hnew⟩
  rw [hlistDelInit, hhashed, hlistDelLinked_of_mem h hhead]
  rfl

theorem delInit_of_unhashed (h : Represents s t) (hnode : t.nodes n)
    (hout : ∀ head xs, t.lists head = some xs → n ∉ xs) : hlistDelInit s n = some s := by
  rw [hlistDelInit, hlistUnhashed, h.unhashed n hnode hout]
  rfl

/-- An operation whose arguments are as they should be writes through no null pointer, and does
to the pointers what its step does to the table. -/
theorem step_represents (s : Slots α) (t : Table α) (op : Op α) (t' : Table α) (h : Represents s t)
    (hstep : Step t op t') : ∃ s', exec s op = some s' ∧ Represents s' t' := by
  cases hstep with
  | initHead hout hnode => exact ⟨_, rfl, represents_init h hout hnode⟩
  | initNode hout => exact ⟨_, rfl, represents_initNode h hout⟩
  | @addHead n head xs hhead hout =>
    refine ⟨_, rfl, ?_⟩
    have hhung : Hung s head ([] ++ xs) := h.owned.holds hhead
    have hfirst := hhung.next_eq
    rw [List.getLastD_nil] at hfirst
    rw [hlistAddHead_eq, hfirst]
    exact @represents_insert α _ s t head n [] xs h hhead hout
  | @addBefore n next head xs ys hhead hout =>
    have hhung : Hung s head (xs ++ next :: ys) := h.owned.holds hhead
    have hne : n ≠ next := by
      intro heq
      apply hout head _ hhead
      rw [heq]
      exact List.mem_cons_of_mem head (List.mem_append_right xs List.mem_cons_self)
    exact ⟨_, hlistAddBefore_eq hne hhung.pprev_eq, represents_insert h hhead hout⟩
  | @addAfter n next head xs ys hhead hout =>
    refine ⟨_, rfl, ?_⟩
    have hhung : Hung s head (xs ++ n :: ys) := h.owned.holds hhead
    have hin : ∀ a ∈ n :: ys, next ≠ a := by
      intro a ha heq
      exact hout head _ hhead (heq ▸ List.mem_cons_of_mem head (List.mem_append_right xs ha))
    have hout' : ys.head? ≠ some next := by
      intro heq
      exact hin next (List.mem_cons_of_mem n (List.mem_of_mem_head? heq)) rfl
    have hnext := hhung.next_node
    rw [hlistAddAfter_eq s (Ne.symm (hin n List.mem_cons_self)) (hnext ▸ hout'), hnext]
    rw [List.append_cons] at hhead
    have hnew := represents_insert h hhead hout
    rw [List.getLastD_concat, List.append_assoc, List.singleton_append] at hnew
    exact hnew
  | del hhead => exact ⟨_, hlistDelLinked_of_mem h hhead, represents_remove h hhead⟩
  | delInit hhead => exact delInit_of_mem h hhead
  | delInitUnhashed hnode hout => exact ⟨s, delInit_of_unhashed h hnode hout, h⟩

end Steps

section Reading

end Reading

def Table.empty : Table α := ⟨fun _ => none, fun _ => False⟩

omit [DecidableEq α] in
theorem represents_empty (s : Slots α) : Represents s Table.empty := by
  constructor
  · exact owned_none hungShape s
  · intro head xs n hhead
    cases hhead
  · intro n hn
    exact rfl
  · intro n hn
    exact absurd hn id

section Loops

variable {body : α → Slots α → Option (Slots α)} {fuel : ℕ}

omit [DecidableEq α] in
/-- The invariant rule of `hlist_for_each_entry_safe`: `Inv done rest s` relates the nodes it
has been at, those it still has to come to, and the pointers. -/
theorem visitEntriesSafe_rule {Inv : List α → List α → Slots α → Prop}
    (hnext : ∀ done x rest s, Inv done (x :: rest) s → s.next x = rest.head?)
    (hbody : ∀ done x rest s, Inv done (x :: rest) s → ∃ s', body x s = some s' ∧ Inv (done ++ [x]) rest s')
    {done rest : List α} (hinv : Inv done rest s) (hfuel : rest.length < fuel) :
    ∃ s', visitEntriesSafe body fuel s rest.head? = some (rest, s') ∧ Inv (done ++ rest) [] s' := by
  induction rest generalizing done s fuel with
  | nil =>
    obtain ⟨fuel, rfl⟩ := Nat.exists_eq_add_one.mpr hfuel
    rw [List.append_nil]
    exact ⟨s, rfl, hinv⟩
  | cons x rest ih =>
    obtain ⟨fuel, rfl⟩ := Nat.exists_eq_add_one.mpr (Nat.zero_lt_of_lt hfuel)
    obtain ⟨m, hm, hinvm⟩ := hbody done x rest s hinv
    obtain ⟨s', hloop, hlast⟩ := ih hinvm (Nat.lt_of_succ_lt_succ hfuel)
    refine ⟨s', ?_, ?_⟩
    · simp only [List.head?_cons, visitEntriesSafe, hnext done x rest s hinv, hm, hloop, Option.bind_eq_bind,
        Option.bind_some]
      rfl
    · rwa [List.append_assoc, List.singleton_append] at hlast

/-- With `hlist_del_init` in its body, for some of the entries, the loop comes to every entry and
leaves the others. -/
theorem hlistForEachEntrySafe_delInit (keep : α → Bool) (h : Represents s t) (hhead : t.lists head = some xs)
    (hfuel : xs.length < fuel) :
    ∃ s', hlistForEachEntrySafe s (fun x s => if keep x then some s else hlistDelInit s x) head fuel =
        some (xs, s') ∧ Represents s' ⟨put t.lists head head (xs.filter keep), t.nodes⟩ := by
  have hhung : Hung s head ([] ++ xs) := h.owned.holds hhead
  have hfirst := hhung.next_eq
  rw [List.getLastD_nil] at hfirst
  rw [hlistForEachEntrySafe, hfirst]
  apply @visitEntriesSafe_rule α s _ fuel (fun done rest s =>
    Represents s ⟨put t.lists head head (done.filter keep ++ rest), t.nodes⟩) _ _ [] xs _ hfuel |>.imp
  · intro s' hs'
    simpa using hs'
  · intro done x rest s hs
    have hring : Hung s head (done.filter keep ++ x :: rest) := hs.owned.holds (put_head ..)
    exact hring.next_node
  · intro done x rest s hs
    rw [List.filter_append, List.filter_singleton]
    by_cases hx : keep x = true
    · refine ⟨s, if_pos hx, ?_⟩
      simpa [hx] using hs
    · obtain ⟨s', hdel, hs'⟩ := delInit_of_mem hs (put_head ..)
      refine ⟨s', (if_neg hx).trans hdel, ?_⟩
      rw [put_put] at hs'
      simpa [hx] using hs'
  · rw [List.filter_nil, List.nil_append, put_same t.lists hhead]
    exact h

theorem Table.Outside.put {a gone : α} {nodes : α → Prop} {zs : List α} (h : t.Outside a)
    (hout : a ∉ head :: zs) : Table.Outside ⟨OwnedLists.put t.lists gone head zs, nodes⟩ a := by
  intro other ys hother hmem
  rcases put_eq_some hother with ⟨rfl, rfl⟩ | ⟨-, -, hold⟩
  · exact hout hmem
  · exact h other ys hold hmem

omit [DecidableEq α] in
theorem outside_empty (a : α) : Table.empty.Outside a := by
  intro head xs hhead
  cases hhead

theorem runs_two_nodes : Runs Step Table.empty [.initHead 0, .addHead 1 0, .addAfter 1 2]
    ((Table.insert ⟨put (fun _ => none) 0 0 [], fun _ => False⟩ 1 0 [1]).insert 2 0 [1, 2]) := by
  have hthird : Table.Outside ⟨put (fun _ => none) 0 0 [], fun _ => False⟩ 2 := (outside_empty 2).put (by decide)
  apply Runs.cons (Step.initHead (outside_empty 0) id)
  apply Runs.cons (Step.addHead (put_head ..) ((outside_empty 1).put (by decide)))
  apply Runs.cons (@Step.addAfter _ _ _ 1 2 0 [] [] (put_head ..) (hthird.put (by decide)))
  exact Runs.nil _

theorem hlistForEachEntrySafe_delInit_two_nodes : ∃ s s',
    run exec ⟨fun _ => none, fun _ => none⟩ [.initHead 0, .addHead 1 0, .addAfter 1 2] = some s ∧
    hlistForEachEntrySafe s (fun x s => if x != 1 then some s else hlistDelInit s x) 0 3 = some ([1, 2], s') ∧
    Represents s' ⟨put (put (put (put (fun _ => none) 0 0 []) 1 0 [1]) 2 0 [1, 2]) 0 0 [2],
      fun a => a = 2 ∨ a = 1 ∨ False⟩ := by
  obtain ⟨s, hrun, hs⟩ := simulation_run step_represents (represents_empty _) runs_two_nodes
  obtain ⟨s', hloop, hs'⟩ := hlistForEachEntrySafe_delInit (fun x => x != 1) hs (put_head ..) (Nat.lt_succ_self 2)
  exact ⟨s, s', hrun, hloop, hs'⟩

omit [DecidableEq α] in
/-- Once `pos` has become the old value of `n`, and that is no null pointer, it stays so. -/
theorem visitSafe_stuck (n : α) (s : Slots α) (pos : α) (fuel : ℕ) :
    visitSafe body (some n) fuel s (some pos) = none := by
  induction fuel generalizing s pos with
  | zero => rfl
  | succ fuel ih =>
    rw [visitSafe]
    cases body pos s with
    | none => rfl
    | some m =>
      simp only [Option.bind_eq_bind, Option.bind_some, ih]
      rfl

omit [DecidableEq α] in
/-- `hlist_for_each_safe` comes to all nodes of a list, and ends, only when there is none, or when
there is one and `n` happens to be null before the loop. -/
theorem hlistForEachSafe_visits_iff (h : Hung s head xs) (n : Option α)
    (hbody : ∀ x s, (body x s).isSome = true) :
    (∃ fuel s', hlistForEachSafe s body n head fuel = some (xs, s')) ↔
      xs = [] ∨ (xs.length = 1 ∧ n = none) := by
  have hfirst := @Hung.next_eq α s head [] xs h
  rw [List.getLastD_nil] at hfirst
  simp only [hlistForEachSafe, hfirst]
  cases xs with
  | nil =>
    constructor
    · intro hvisits
      exact .inl rfl
    · intro hempty
      exact ⟨1, s, rfl⟩
  | cons x xs =>
    obtain ⟨m, hm⟩ := Option.isSome_iff_exists.mp (hbody x s)
    cases n with
    | some p =>
      constructor
      · intro hvisits
        obtain ⟨fuel, s', hloop⟩ := hvisits
        rw [List.head?_cons, visitSafe_stuck] at hloop
        cases hloop
      · intro hshort
        rcases hshort with hnil | hone
        · cases hnil
        · cases hone.2
    | none =>
      have hloop : ∀ fuel, visitSafe body none (fuel + 2) s (some x) = some ([x], m) := by
        intro fuel
        simp only [visitSafe, hm, Option.bind_eq_bind, Option.bind_some]
        rfl
      constructor
      · intro hvisits
        obtain ⟨fuel, s', hvisit⟩ := hvisits
        match fuel with
        | 0 => cases hvisit
        | 1 =>
          simp only [List.head?_cons, visitSafe, hm, Option.bind_eq_bind, Option.bind_some] at hvisit
          cases hvisit
        | fuel + 2 =>
          rw [List.head?_cons, hloop] at hvisit
          cases hvisit
          exact .inr ⟨rfl, rfl⟩
      · intro hshort
        rcases hshort with hnil | hone
        · cases hnil
        · have hnil : xs = [] := List.length_eq_zero_iff.mp (Nat.succ.inj hone.1)
          exact ⟨2, m, by rw [hnil, List.head?_cons, hloop]⟩

/-- One node, and an `n` that happens to point to it: the loop does not end. -/
theorem hlistForEachSafe_one_node : ¬∃ fuel s', hlistForEachSafe
    ⟨fun a : ℕ => if a = 0 then some 1 else none, fun a => if a = 1 then some 0 else none⟩
    (fun _ s => some s) (some 1) 0 fuel = some ([1], s') := by
  have hhung : Hung (⟨fun a : ℕ => if a = 0 then some 1 else none, fun a => if a = 1 then some 0 else none⟩ :
      Slots ℕ) 0 [1] := ⟨by decide, .cons_cons ⟨rfl, rfl⟩ (.singleton 1), rfl⟩
  rw [hlistForEachSafe_visits_iff hhung (some 1) (fun x s => rfl)]
  decide

end Loops

end WorkCode.HashLists
