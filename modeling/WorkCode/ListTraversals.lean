import WorkCode.ListStore

/-!
# The loops of `list.h`

The loop macros differ in what their cursor is (a node, or the structure a node is a member
of), in the direction they go, in where they start, and in whether they fetch the next
cursor before the body runs. The plain loops read a list back. The safe loops come with an
invariant rule: whatever the body does to the part behind the cursor and to the entry
itself, the loop goes on through the entries that were there when it started.
-/

namespace WorkCode.ListTraversals

open EventRuns ListRotation ListStore OwnedLists PointerRing

variable {w : ℕ} {α : Type} [DecidableEq α]

/-- A `forEach` with a body, which is run for every cursor but does not change the cursor. -/
def forEachDo (node cursor : α → α) (step : Links α → α → α) (body : α → Links α → Links α) (head : α) :
    ℕ → Links α → α → Option (List α × Links α)
  | 0, _, _ => none
  | fuel + 1, l, pos =>
    if node pos = head then some ([], l)
    else
      let l := body pos l
      (forEachDo node cursor step body head fuel l (cursor (step l (node pos)))).map
        fun r => (pos :: r.1, r.2)

/-- A loop that fetches the next cursor `n` before the body is run. -/
def forEachSafe (node cursor : α → α) (step : Links α → α → α) (body : α → Links α → Links α)
    (head : α) : ℕ → Links α → α → α → Option (List α × Links α)
  | 0, _, _, _ => none
  | fuel + 1, l, pos, n =>
    if node pos = head then some ([], l)
    else
      let l := body pos l
      (forEachSafe node cursor step body head fuel l n (cursor (step l (node n)))).map
        fun r => (pos :: r.1, r.2)

section Loops

variable (offset : BitVec w) (l : Links (BitVec w)) (body : BitVec w → Links (BitVec w) → Links (BitVec w))
  (head pos : BitVec w) (fuel : ℕ)

/-- `list_for_each`, and `__list_for_each`. -/
def listForEach : Option (List (BitVec w)) := forEach id id l.next head fuel (l.next head)

def listForEachPrev : Option (List (BitVec w)) := forEach id id l.prev head fuel (l.prev head)

def listForEachEntryReverse : Option (List (BitVec w)) :=
  forEach (member offset) (listEntry offset) l.prev head fuel (listEntry offset (l.prev head))

def listForEachEntryContinue : Option (List (BitVec w)) :=
  forEach (member offset) (listEntry offset) l.next head fuel (listEntry offset (l.next (member offset pos)))

/-- `list_prepare_entry`, where `0` is the null pointer. -/
def listPrepareEntry : BitVec w := if pos ≠ 0 then pos else listEntry offset head

def listForEachEntryFrom : Option (List (BitVec w)) :=
  forEach (member offset) (listEntry offset) l.next head fuel pos

def listForEachEntryDo : Option (List (BitVec w) × Links (BitVec w)) :=
  forEachDo (member offset) (listEntry offset) Links.next body head fuel l (listEntry offset (l.next head))

def listForEachSafe : Option (List (BitVec w) × Links (BitVec w)) :=
  let pos := l.next head
  forEachSafe id id Links.next body head fuel l pos (l.next pos)

def listForEachEntrySafe : Option (List (BitVec w) × Links (BitVec w)) :=
  let pos := listEntry offset (l.next head)
  let n := listEntry offset (l.next (member offset pos))
  forEachSafe (member offset) (listEntry offset) Links.next body head fuel l pos n

def listForEachEntrySafeContinue : Option (List (BitVec w) × Links (BitVec w)) :=
  let pos := listEntry offset (l.next (member offset pos))
  let n := listEntry offset (l.next (member offset pos))
  forEachSafe (member offset) (listEntry offset) Links.next body head fuel l pos n

def listForEachEntrySafeFrom : Option (List (BitVec w) × Links (BitVec w)) :=
  let n := listEntry offset (l.next (member offset pos))
  forEachSafe (member offset) (listEntry offset) Links.next body head fuel l pos n

def listForEachEntrySafeReverse : Option (List (BitVec w) × Links (BitVec w)) :=
  let pos := listEntry offset (l.prev head)
  let n := listEntry offset (l.prev (member offset pos))
  forEachSafe (member offset) (listEntry offset) Links.prev body head fuel l pos n

end Loops

section Safe

variable {node cursor : α → α} (hcursor : ∀ x, node (cursor x) = x) {step : Links α → α → α}
  {body : α → Links α → Links α} {head : α}
include hcursor

/-- The invariant rule. `Inv done rest l` relates the nodes the loop has been at, those it still
has to come to, and the pointers; the pointer that fetches the next cursor is read after the
body has run for the one before it. -/
theorem forEachSafe_rule {Inv : List α → List α → Links α → Prop}
    (hout : ∀ done rest l, Inv done rest l → head ∉ rest)
    (hstep : ∀ done x rest l, Inv done (x :: rest) l → step l x = rest.headD head)
    (hbody : ∀ done x rest l, Inv done (x :: rest) l → Inv (done ++ [x]) rest (body (cursor x) l))
    {done rest : List α} {l : Links α} (hinv : Inv done rest l) {fuel : ℕ} (hfuel : rest.length < fuel) :
    ∃ l', forEachSafe node cursor step body head fuel l (cursor (rest.headD head))
      (cursor (step l (rest.headD head))) = some (rest.map cursor, l') ∧ Inv (done ++ rest) [] l' := by
  induction rest generalizing done l fuel with
  | nil =>
    obtain ⟨fuel, rfl⟩ := Nat.exists_eq_add_one.mpr hfuel
    refine ⟨l, ?_, ?_⟩
    · rw [forEachSafe, List.headD_nil, hcursor, if_pos rfl]
      rfl
    · rwa [List.append_nil]
  | cons x rest ih =>
    obtain ⟨fuel, rfl⟩ := Nat.exists_eq_add_one.mpr (Nat.zero_lt_of_lt hfuel)
    have hfuel' : rest.length < fuel := Nat.lt_of_succ_lt_succ hfuel
    have hne : x ≠ head := by
      intro heq
      exact hout done _ l hinv (heq ▸ List.mem_cons_self)
    obtain ⟨l', hloop, hlast⟩ := ih (hbody done x rest l hinv) hfuel'
    refine ⟨l', ?_, ?_⟩
    · rw [forEachSafe, List.headD_cons, hcursor, if_neg hne, hstep done x rest l hinv, hcursor]
      simp only [hloop]
      rfl
    · rwa [List.append_assoc, List.singleton_append] at hlast

end Safe

section Reading

variable (offset : BitVec w) {l : Links (BitVec w)} {head x : BitVec w} {xs ys : List (BitVec w)} {fuel : ℕ}

theorem readBack (h : Ring l head xs) (hfuel : xs.length < fuel) :
    listForEach l head fuel = some xs ∧ listForEachPrev l head fuel = some xs.reverse ∧
    listForEachEntry offset l head fuel = some (xs.map (listEntry offset)) ∧
    listForEachEntryReverse offset l head fuel = some (xs.reverse.map (listEntry offset)) := by
  have hid : ∀ x : BitVec w, id (id x) = x := fun x => rfl
  have hforward := forEach_head hid h hfuel
  have hbackward := forEach_head_prev hid h hfuel
  rw [List.map_id] at hforward hbackward
  refine ⟨hforward, hbackward, ?_, ?_⟩
  · exact listForEachEntry_eq offset h hfuel
  · exact forEach_head_prev (member_listEntry offset) h hfuel

theorem listFirstEntry_eq (h : Ring l head (x :: xs)) : listFirstEntry offset l head = listEntry offset x := by
  rw [listFirstEntry, h.linked_out.1, List.headD_cons]

theorem listForEachEntryContinue_prepare (h : Ring l head xs) (hfuel : xs.length < fuel) :
    listForEachEntryContinue offset l head (listPrepareEntry offset head 0) fuel =
      some (xs.map (listEntry offset)) := by
  rw [listPrepareEntry, if_neg (not_not.mpr rfl), listForEachEntryContinue, member_listEntry]
  exact forEach_head (member_listEntry offset) h hfuel

theorem readBack_from (h : Ring l head (xs ++ x :: ys)) (hfuel : ys.length < fuel) :
    listForEachEntryContinue offset l head (listEntry offset x) fuel = some (ys.map (listEntry offset)) ∧
    listForEachEntryFrom offset l head (listEntry offset x) (fuel + 1) =
      some ((x :: ys).map (listEntry offset)) := by
  have hrest := forEach_ring (member_listEntry offset) h hfuel
  have hne : x ≠ head := by
    intro heq
    apply (List.nodup_cons.mp h.nodup).1
    rw [← heq]
    exact List.mem_append_right xs List.mem_cons_self
  constructor
  · rw [listForEachEntryContinue, member_listEntry]
    exact hrest
  · rw [listForEachEntryFrom, forEach, member_listEntry, if_neg hne, hrest]
    rfl

end Reading

/-- After any sequence of operations on a memory without lists, the loops read from the
pointers what the operations have put in: every list in order, backwards in the opposite
order, and from any entry on; `list_first_entry` is where it begins, and `list_empty` and
`list_is_last` tell where it ends. -/
theorem run_readBack (offset : BitVec w) (l : Links (BitVec w)) {ops : List (Op (BitVec w))}
    {lists : Heads (BitVec w)} (hruns : Runs Step (fun _ => none) ops lists) {head : BitVec w}
    {xs : List (BitVec w)} (hhead : lists head = some xs) {fuel : ℕ} (hfuel : xs.length < fuel) :
    let m := ops.foldl Op.exec l
    (listEmpty m head = true ↔ xs = []) ∧
    (listForEach m head fuel = some xs ∧ listForEachPrev m head fuel = some xs.reverse ∧
      listForEachEntry offset m head fuel = some (xs.map (listEntry offset)) ∧
      listForEachEntryReverse offset m head fuel = some (xs.reverse.map (listEntry offset))) ∧
    (∀ before x behind, xs = before ++ x :: behind →
      (listIsLast m x head = true ↔ behind = []) ∧
      listForEachEntryContinue offset m head (listEntry offset x) fuel =
        some (behind.map (listEntry offset)) ∧
      listForEachEntryFrom offset m head (listEntry offset x) fuel =
        some ((x :: behind).map (listEntry offset))) ∧
    (∀ x behind, xs = x :: behind → listFirstEntry offset m head = listEntry offset x) ∧
    listForEachEntryContinue offset m head (listPrepareEntry offset head 0) fuel =
      some (xs.map (listEntry offset)) := by
  have hring := (run_refines (owned_none ringShape l) hruns).holds hhead
  refine ⟨listEmpty_iff hring, readBack offset hring hfuel, ?_, ?_, listForEachEntryContinue_prepare offset hring hfuel⟩
  rotate_left
  · rintro x behind rfl
    exact listFirstEntry_eq offset hring
  intro before x behind heq
  rw [heq] at hring
  obtain ⟨fuel, rfl⟩ := Nat.exists_eq_add_one.mpr (Nat.zero_lt_of_lt hfuel)
  have hbehind : behind.length < fuel := by
    rw [heq, List.length_append, List.length_cons] at hfuel
    omega
  refine ⟨listIsLast_iff hring, ?_, ?_⟩
  · exact (readBack_from offset hring (Nat.lt_succ_of_lt hbehind)).1
  · exact (readBack_from offset hring hbehind).2

theorem run_readBack_two_nodes : listForEachPrev ([Op.init 16, .add 32 16, .addTail 48 16].foldl Op.exec
    ⟨fun a : BitVec 8 => a, fun a => a⟩) 16 3 = some [48, 32] :=
  (run_readBack 4 _ runs_two_nodes (put_head ..) (by decide)).2.1.2.1

/-- A loop goes through the part `zs` of the list `arrange zs`: what it has not come to yet keeps
its place when an entry is taken out. -/
structure Walk (step : Links (BitVec w) → BitVec w → BitVec w) (head : BitVec w)
    (arrange : List (BitVec w) → List (BitVec w)) : Prop where
  split : ∀ as x bs, ∃ cs ds, arrange (as ++ x :: bs) = cs ++ x :: ds ∧ arrange (as ++ bs) = cs ++ ds
  next : ∀ l as x bs, Ring l head (arrange (as ++ x :: bs)) → step l x = bs.headD head

/-- A body that leaves some entries where they are and deletes the others, and may free them, that is,
leave anything in their own cell. -/
structure Removes (node : BitVec w → BitVec w) (keep : BitVec w → Bool)
    (body : BitVec w → Links (BitVec w) → Links (BitVec w)) : Prop where
  keeps : ∀ pos l, keep (node pos) → body pos l = l
  deletes : ∀ pos l a, keep (node pos) = false → a ≠ node pos → (listDel l (node pos)).Same (body pos l) a

section Removal

variable {l : Links (BitVec w)} {lists : Heads (BitVec w)} {head x : BitVec w} {as bs xs : List (BitVec w)}
  {node cursor : BitVec w → BitVec w} {step : Links (BitVec w) → BitVec w → BitVec w}
  {arrange : List (BitVec w) → List (BitVec w)} {keep : BitVec w → Bool}
  {body : BitVec w → Links (BitVec w) → Links (BitVec w)} {fuel : ℕ}

theorem walk_behind (head : BitVec w) (before : List (BitVec w)) : Walk Links.next head (before ++ ·) := by
  constructor
  · intro as x bs
    exact ⟨before ++ as, bs, by simp, by simp⟩
  · intro l as x bs h
    rw [← List.append_assoc] at h
    exact h.linked_behind.1

theorem walk_backwards (head : BitVec w) : Walk Links.prev head List.reverse := by
  constructor
  · intro as x bs
    exact ⟨bs.reverse, as.reverse, by simp, by simp⟩
  · intro l as x bs h
    have hmirror := h.mirror
    rw [List.reverse_reverse] at hmirror
    exact hmirror.linked_behind.1

theorem Walk.mem (h : Walk step head arrange) (hx : x ∈ xs) : x ∈ arrange xs := by
  obtain ⟨as, bs, rfl⟩ := List.append_of_mem hx
  obtain ⟨cs, ds, heq, -⟩ := h.split as x bs
  rw [heq]
  exact List.mem_append_right cs List.mem_cons_self

theorem owned_removes (hcursor : ∀ x, node (cursor x) = x) (hbody : Removes node keep body)
    (h : Owned ringShape l lists) (hhead : lists head = some (as ++ x :: bs)) (hx : keep x = false) :
    Owned ringShape (body (cursor x) l) (put lists head head (as ++ bs)) := by
  have hsame := hbody.deletes (cursor x) l
  rw [hcursor] at hsame
  apply (owned_del h hhead).congr
  intro other zs hother a ha
  apply hsame a hx
  -- the entry lies in no list any more
  intro heq
  rw [heq] at ha
  exact ne_of_move h hhead hother ((loose_del h hhead).1 other zs hother ha).1.symm

/-- "Safe against removal of list entry": the loop comes to every entry of its part once and in
order; those that are kept stay, and no other list is touched. -/
theorem forEachSafe_removes (hwalk : Walk step head arrange) (hcursor : ∀ x, node (cursor x) = x)
    (hbody : Removes node keep body) (h : Owned ringShape l lists) (hhead : lists head = some (arrange xs))
    (hfuel : xs.length < fuel) :
    ∃ l', forEachSafe node cursor step body head fuel l (cursor (xs.headD head))
        (cursor (step l (xs.headD head))) = some (xs.map cursor, l') ∧
      Owned ringShape l' (put lists head head (arrange (xs.filter keep))) := by
  have hrule := @forEachSafe_rule (BitVec w) _ node cursor hcursor step body head (fun done rest l =>
    Owned ringShape l (put lists head head (arrange (done.filter keep ++ rest)))) ?_ ?_ ?_ [] xs l ?_ fuel hfuel
  · obtain ⟨l', hloop, hlast⟩ := hrule
    rw [List.append_nil, List.nil_append] at hlast
    exact ⟨l', hloop, hlast⟩
  · intro done rest l hm hmem
    exact (List.nodup_cons.mp (hm.holds (put_head ..)).nodup).1 (hwalk.mem (List.mem_append_right _ hmem))
  · intro done x rest l hm
    exact hwalk.next l _ x rest (hm.holds (put_head ..))
  · intro done x rest l hm
    by_cases hx : keep x = true
    · rw [hbody.keeps _ _ (by rwa [hcursor])]
      simpa [List.filter_append, hx] using hm
    · rw [Bool.not_eq_true] at hx
      obtain ⟨cs, ds, heq, hrest⟩ := hwalk.split (done.filter keep) x rest
      have hdel := owned_removes hcursor hbody hm ((put_head ..).trans (congrArg some heq)) hx
      rw [put_put, ← hrest] at hdel
      simpa [List.filter_append, hx] using hdel
  · rwa [List.filter_nil, List.nil_append, put_same lists hhead]

end Removal

section Bodies

variable (offset : BitVec w) {l : Links (BitVec w)} {lists : Heads (BitVec w)} {head other : BitVec w}
  {xs ys : List (BitVec w)} {body : BitVec w → Links (BitVec w) → Links (BitVec w)} {fuel : ℕ}

/-- The safe loop over a list of the store, with a body that leaves some entries where they are
and takes the others out. `Inv` says what the body does elsewhere. -/
theorem listForEachEntrySafe_owned (keep : BitVec w → Bool) {Inv : List (BitVec w) → Heads (BitVec w) → Prop}
    (hbody : ∀ done x rest l m, Owned ringShape l m → m head = some (done.filter keep ++ x :: rest) →
      Inv done m → ∃ m', Owned ringShape (body (listEntry offset x) l) m' ∧
        m' head = some ((done ++ [x]).filter keep ++ rest) ∧ Inv (done ++ [x]) m')
    (h : Owned ringShape l lists) (hhead : lists head = some xs) (hinv : Inv [] lists)
    (hfuel : xs.length < fuel) :
    ∃ l' lists', listForEachEntrySafe offset l body head fuel = some (xs.map (listEntry offset), l') ∧
      Owned ringShape l' lists' ∧ lists' head = some (xs.filter keep) ∧ Inv xs lists' := by
  have hrule := @forEachSafe_rule (BitVec w) _ (member offset) (listEntry offset) (member_listEntry offset)
    Links.next body head (fun done rest l => ∃ m, Owned ringShape l m ∧
      m head = some (done.filter keep ++ rest) ∧ Inv done m) ?_ ?_ ?_ [] xs l ⟨lists, h, hhead, hinv⟩ fuel hfuel
  · obtain ⟨l', hloop, m, hm, hmhead, hminv⟩ := hrule
    refine ⟨l', m, ?_, hm, ?_, hminv⟩
    · have hfirst : l.next head = xs.headD head := (h.holds hhead).linked_out.1
      rw [listForEachEntrySafe, member_listEntry, hfirst]
      exact hloop
    · rwa [List.append_nil] at hmhead
  · intro done rest l hinv hmem
    obtain ⟨m, hm, hmhead, -⟩ := hinv
    have hring : Ring l head (done.filter keep ++ rest) := hm.holds hmhead
    exact (List.nodup_cons.mp hring.nodup).1 (List.mem_append_right _ hmem)
  · intro done x rest l hinv
    obtain ⟨m, hm, hmhead, -⟩ := hinv
    have hring : Ring l head (done.filter keep ++ x :: rest) := hm.holds hmhead
    exact hring.linked_behind.1
  · intro done x rest l hinv
    obtain ⟨m, hm, hmhead, hminv⟩ := hinv
    exact hbody done x rest l m hm hmhead hminv

theorem filter_concat {keep : BitVec w → Bool} (done : List (BitVec w)) (x : BitVec w) :
    (done ++ [x]).filter keep = if keep x then done.filter keep ++ [x] else done.filter keep := by
  by_cases hx : keep x = true
  · simp [hx]
  · simp [hx]

/-- "Safe against removal of list entry": a body that deletes entries, and may free them, that
is, leave anything in their own cell. The loop still comes to every entry once and in order;
the others stay, and no other list is touched. -/
theorem listForEachEntrySafe_del (keep : BitVec w → Bool) (hkeep : ∀ pos l, keep (member offset pos) → body pos l = l)
    (hdel : ∀ pos l a, keep (member offset pos) = false → a ≠ member offset pos →
      (listDel l (member offset pos)).Same (body pos l) a)
    (h : Owned ringShape l lists) (hhead : lists head = some xs) (hfuel : xs.length < fuel) :
    ∃ l', listForEachEntrySafe offset l body head fuel = some (xs.map (listEntry offset), l') ∧
      Owned ringShape l' (put lists head head (xs.filter keep)) := by
  have hfirst : l.next head = xs.headD head := (h.holds hhead).linked_out.1
  rw [listForEachEntrySafe, member_listEntry, hfirst]
  exact forEachSafe_removes (walk_behind head []) (member_listEntry offset) ⟨hkeep, hdel⟩ h hhead hfuel

theorem listForEachEntrySafe_del_two_nodes : ∃ l', listForEachEntrySafe 4
    ([Op.init 16, .add 32 16, .addTail 48 16].foldl Op.exec ⟨fun a : BitVec 8 => a, fun a => a⟩)
    (fun pos l => if member 4 pos != 32 then l else (((listDel l 32).setNext 32 0).setPrev 32 0)) 16 3 =
      some ([28, 44], l') ∧ Owned ringShape l' (put (put (put (put (fun _ => none) 16 16 []) 32 16 [32]) 48 16
        [32, 48]) 16 16 [48]) := by
  refine listForEachEntrySafe_del 4 (fun x => x != 32) ?_ ?_ run_refines_two_nodes (put_head ..) (by decide)
  · intro pos l hkeep
    rw [if_pos hkeep]
  · intro pos l a hkeep ha
    have hpos : member 4 pos = 32 := by simpa using hkeep
    rw [hpos] at ha ⊢
    exact ⟨Function.update_of_ne ha _ _, Function.update_of_ne ha _ _⟩

/-- The other safe loops are as safe: over the nodes, backwards, behind an entry and from an entry
on, each comes to what the plain loop of its kind comes to, in the same order, and leaves what its
body keeps. -/
theorem safeLoops_removes (keep : BitVec w → Bool) (h : Owned ringShape l lists) (hhead : lists head = some xs)
    (hfuel : xs.length < fuel) :
    (∀ body, Removes id keep body → ∃ l', listForEachSafe l body head fuel = some (xs, l') ∧
      Owned ringShape l' (put lists head head (xs.filter keep))) ∧
    ∀ body, Removes (member offset) keep body →
      (∃ l', listForEachEntrySafeReverse offset l body head fuel =
          some (xs.reverse.map (listEntry offset), l') ∧
        Owned ringShape l' (put lists head head (xs.filter keep))) ∧
      ∀ before x behind, xs = before ++ x :: behind →
        (∃ l', listForEachEntrySafeContinue offset l body head (listEntry offset x) fuel =
            some (behind.map (listEntry offset), l') ∧
          Owned ringShape l' (put lists head head (before ++ x :: behind.filter keep))) ∧
        ∃ l', listForEachEntrySafeFrom offset l body head (listEntry offset x) fuel =
            some ((x :: behind).map (listEntry offset), l') ∧
          Owned ringShape l' (put lists head head (before ++ (x :: behind).filter keep)) := by
  have hring : Ring l head xs := h.holds hhead
  constructor
  · intro body hbody
    have hid : ∀ x : BitVec w, id (id x) = x := fun x => rfl
    have hloop := forEachSafe_removes (walk_behind head []) hid hbody h hhead hfuel
    rwa [List.map_id, ← hring.linked_out.1] at hloop
  · intro body hbody
    constructor
    · have hmirror : l.prev head = xs.reverse.headD head := hring.mirror.linked_out.1
      have hreverse : lists head = some xs.reverse.reverse := by rw [hhead, List.reverse_reverse]
      rw [← List.length_reverse] at hfuel
      have hloop := forEachSafe_removes (walk_backwards head) (member_listEntry offset) hbody h hreverse hfuel
      rw [← hmirror, ← List.filter_reverse, List.reverse_reverse] at hloop
      rw [listForEachEntrySafeReverse, member_listEntry]
      exact hloop
    · rintro before x behind rfl
      rw [List.length_append, List.length_cons] at hfuel
      have hnext : l.next x = behind.headD head := hring.linked_behind.1
      have hassoc : lists head = some (before ++ [x] ++ behind) := by
        rw [hhead, List.append_assoc, List.singleton_append]
      constructor
      · have hloop := @forEachSafe_removes w l lists head behind _ _ _ _ keep body fuel
          (walk_behind head (before ++ [x])) (member_listEntry offset) hbody h hassoc (by omega)
        rw [← hnext, List.append_assoc, List.singleton_append] at hloop
        rw [listForEachEntrySafeContinue, member_listEntry, member_listEntry]
        exact hloop
      · have hloop := @forEachSafe_removes w l lists head (x :: behind) _ _ _ _ keep body fuel
          (walk_behind head before) (member_listEntry offset) hbody h hhead
          (by rw [List.length_cons]; omega)
        rw [listForEachEntrySafeFrom, member_listEntry]
        exact hloop

theorem safeLoops_removes_two_nodes : ∃ l', listForEachEntrySafeReverse 4
    ([Op.init 16, .add 32 16, .addTail 48 16].foldl Op.exec ⟨fun a : BitVec 8 => a, fun a => a⟩)
    (fun pos l => if member 4 pos != 32 then l else (((listDel l 32).setNext 32 0).setPrev 32 0)) 16 3 =
      some ([44, 28], l') ∧ Owned ringShape l' (put (put (put (put (fun _ => none) 16 16 []) 32 16 [32]) 48 16
        [32, 48]) 16 16 [48]) := by
  refine ((safeLoops_removes 4 (fun x => x != 32) run_refines_two_nodes (put_head ..) (by decide)).2 _ ?_).1
  constructor
  · intro pos l hkeep
    rw [if_pos hkeep]
  · intro pos l a hkeep ha
    have hpos : member 4 pos = 32 := by simpa using hkeep
    rw [hpos] at ha ⊢
    exact ⟨Function.update_of_ne ha _ _, Function.update_of_ne ha _ _⟩

/-- A body that moves entries to another list. The loop comes to every entry; those that are
moved end up at the front of the other list, the last of them first. -/
theorem listForEachEntrySafe_move (keep : BitVec w → Bool) (h : Owned ringShape l lists)
    (hhead : lists head = some xs) (hother : lists other = some ys) (hne : other ≠ head)
    (hfuel : xs.length < fuel) :
    ∃ l' lists', listForEachEntrySafe offset l
        (fun pos l => if keep (member offset pos) then l else listMove l (member offset pos) other) head fuel =
          some (xs.map (listEntry offset), l') ∧
      Owned ringShape l' lists' ∧ lists' head = some (xs.filter keep) ∧
      lists' other = some ((xs.filter (!keep ·)).reverse ++ ys) ∧
      ∀ a, a ≠ head → a ≠ other → lists' a = lists a := by
  apply @listForEachEntrySafe_owned w offset l lists head xs _ fuel keep
    (fun done m => m other = some ((done.filter (!keep ·)).reverse ++ ys) ∧
      ∀ a, a ≠ head → a ≠ other → m a = lists a) _ h hhead ⟨hother, fun a _ _ => rfl⟩ hfuel
  intro done x rest l m hm hmhead hinv
  obtain ⟨hmother, hmrest⟩ := hinv
  rw [filter_concat, filter_concat, member_listEntry]
  by_cases hx : keep x = true
  · refine ⟨m, ?_, ?_, ?_, hmrest⟩
    · rwa [if_pos hx]
    · rw [hmhead, if_pos hx, List.append_assoc, List.singleton_append]
    · simp only [hx]
      exact hmother
  · rw [if_neg hx, if_neg hx]
    have hmem : x ∈ done.filter keep ++ x :: rest := List.mem_append_right _ List.mem_cons_self
    obtain ⟨hloose, hxhead⟩ := loose_del hm hmhead
    have hnone := hm.eq_none hmhead hmem hxhead
    have hxother : x ≠ other := by
      intro heq
      rw [heq, hmother] at hnone
      cases hnone
    have hother' : put m head head (done.filter keep ++ rest) other =
        some ([] ++ ((done.filter (!keep ·)).reverse ++ ys)) := by
      rw [put_of_ne m hne hne, hmother, List.nil_append]
    have hnew := step_refines l m _ _ hm (Step.move hmhead hother')
    refine ⟨_, hnew, ?_, ?_, ?_⟩
    · rw [put_of_ne _ (Ne.symm hxhead) (Ne.symm hne), put_head]
    · rw [put_head]
      simp [hx]
    · intro a ha ha'
      by_cases hax : a = x
      · rw [hax, put_gone _ hxother, ← hmrest x hxhead hxother, hnone]
      · rw [put_of_ne _ hax ha', put_of_ne m ha ha, hmrest a ha ha']

theorem listForEachEntrySafe_move_two_nodes : ∃ l' lists', listForEachEntrySafe 4
    ([Op.init 16, .add 32 16, .addTail 48 16, .init 64].foldl Op.exec ⟨fun a : BitVec 8 => a, fun a => a⟩)
    (fun pos l => if member 4 pos != 48 then l else listMove l (member 4 pos) 64) 16 3 = some ([28, 44], l') ∧
    Owned ringShape l' lists' ∧ lists' 16 = some [32] ∧ lists' 64 = some [48] ∧
    ∀ a, a ≠ 16 → a ≠ 64 → lists' a =
      put (put (put (put (fun _ => none) 16 16 []) 32 16 [32]) 48 16 [32, 48]) 64 64 [] a := by
  have hloose : Loose (put (put (put (fun _ => none) 16 16 []) 32 16 [32]) 48 16 [32, 48]) (64 : BitVec 8) :=
    (((loose_none 64).put (by decide)).put (by decide)).put (by decide)
  have howned := owned_init run_refines_two_nodes hloose
  exact @listForEachEntrySafe_move 8 4 _ _ 16 64 [32, 48] [] 3 (fun x => x != 48) howned
    ((put_of_ne _ (by decide) (by decide) _).trans (put_head ..)) (put_head ..) (by decide) (by decide)

end Bodies

section Unsafe

variable (offset : BitVec w)

/-- Once `list_del_init` has linked an entry to itself, the plain loop stays at it. -/
theorem forEachDo_delInit {head x : BitVec w} (hne : x ≠ head) (l : Links (BitVec w)) (fuel : ℕ) :
    forEachDo (member offset) (listEntry offset) Links.next
      (fun pos l => listDelInit l (member offset pos)) head fuel l (listEntry offset x) = none := by
  induction fuel generalizing l with
  | zero => rfl
  | succ fuel ih =>
    have hself : (listDelInit l x).next x = x := by
      rw [listDelInit, initListHead_eq, Links.next_connect, Function.update_self]
    rw [forEachDo, member_listEntry, if_neg hne]
    simp only [hself, ih]
    rfl

/-- `list_for_each_entry` is not safe against removal: around `list_del_init` it returns from
no list but the empty one. -/
theorem listForEachEntryDo_delInit {l : Links (BitVec w)} {head : BitVec w} {xs : List (BitVec w)}
    (h : Ring l head xs) :
    (∃ fuel r, listForEachEntryDo offset l (fun pos l => listDelInit l (member offset pos)) head fuel =
      some r) ↔ xs = [] := by
  rw [← listEmpty_iff h, listEmpty, decide_eq_true_iff]
  constructor
  · intro hreturns
    obtain ⟨fuel, r, hloop⟩ := hreturns
    by_contra hne
    rw [listForEachEntryDo, forEachDo_delInit offset hne] at hloop
    cases hloop
  · intro hempty
    refine ⟨1, ([], l), ?_⟩
    rw [listForEachEntryDo, forEachDo, member_listEntry, if_pos hempty]

theorem listForEachEntryDo_delInit_alone : ∃ fuel r, listForEachEntryDo 4 (initListHead ⟨id, id⟩ 16)
    (fun pos l => listDelInit l (member 4 pos)) (16 : BitVec 8) fuel = some r :=
  (listForEachEntryDo_delInit 4 (listHeadInit_ring ⟨id, id⟩ 16)).mpr rfl

end Unsafe

end WorkCode.ListTraversals
