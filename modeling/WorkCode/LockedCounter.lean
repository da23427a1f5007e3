import Mathlib.Data.Int.Notation
import Mathlib.Logic.Function.Basic
import WorkCode.EventRuns

/-!
# The threads of `pthread_lock.c`

Each thread goes round a loop: it takes the lock for writing, counts `i` up, prints if it is
not alone, counts `i` down and gives the lock back. The main thread destroys the lock when it
has made the threads. What comes of taking the lock is not looked at.
-/

namespace WorkCode.LockedCounter

open EventRuns

def intMax : ℤ := 2147483647

def intMin : ℤ := -2147483648

/-- Where a thread is in `wrlockThread`, which is the text of `rdlockThread` and of `test` as well; a
load of `i` and the store that follows are two steps. -/
inductive Pc
  | outside
  | entered
  | loaded (value : ℤ)
  | raised
  | checked
  | reloaded (value : ℤ)
  | lowered
  deriving DecidableEq, Repr

variable {τ : Type} [DecidableEq τ]

structure State (τ : Type) where
  pc : τ → Pc
  /-- the writer of `rwlock` -/
  writer : Option τ
  /-- `pthread_rwlock_destroy` has taken effect -/
  destroyed : Bool
  i : ℤ
  /-- who has printed `count` -/
  printed : List τ

/-- `rwlock` and `i` are static; that the lock is all zero makes it a free lock. -/
def State.init : State τ := ⟨fun _ => .outside, none, false, 0, []⟩

def State.setPc (s : State τ) (t : τ) (pc : Pc) : State τ := { s with pc := Function.update s.pc t pc }

/-- What a thread does next behind `pthread_rwlock_wrlock`; `none` where an `int` overflows. -/
def advance (s : State τ) (t : τ) : Option (State τ) :=
  match s.pc t with
  | .outside => none
  | .entered => some (s.setPc t (.loaded s.i))
  | .loaded value => if value < intMax then some ({ s with i := value + 1 }.setPc t .raised) else none
  | .raised => some ({ s with printed := if s.i > 1 then t :: s.printed else s.printed }.setPc t .checked)
  | .checked => some (s.setPc t (.reloaded s.i))
  | .reloaded value => if intMin < value then some ({ s with i := value - 1 }.setPc t .lowered) else none
  | .lowered => some ({ s with writer := if s.writer = some t then none else s.writer }.setPc t .outside)

inductive Event (τ : Type)
  /-- `pthread_rwlock_wrlock` returns, with the lock or with an error -/
  | wrlock (t : τ) (acquired : Bool)
  | advance (t : τ)
  | destroy

/-- A lock gives an error only when it has been destroyed. Whether destroying it has an effect is up to
the library. -/
def step (effect : Bool) (s : State τ) : Event τ → Option (State τ)
  | .wrlock t true =>
    if s.pc t = .outside ∧ s.writer = none then some ({ s with writer := some t }.setPc t .entered) else none
  | .wrlock t false => if s.pc t = .outside ∧ s.destroyed = true then some (s.setPc t .entered) else none
  | .advance t => advance s t
  | .destroy => some { s with destroyed := s.destroyed || effect }

/-- What a thread that has the lock alone finds in `i`. -/
def Pc.Alone (i : ℤ) : Pc → Prop
  | .outside => False
  | .entered => i = 0
  | .loaded value => value = 0 ∧ i = 0
  | .raised => i = 1
  | .checked => i = 1
  | .reloaded value => value = 1 ∧ i = 1
  | .lowered => i = 0

/-- One thread at most is behind the lock, and it is the writer. -/
structure Guarded (s : State τ) : Prop where
  usable : s.destroyed = false
  writer : ∀ t, s.pc t ≠ .outside → s.writer = some t
  alone : ∀ t, s.writer = some t → (s.pc t).Alone s.i
  free : s.writer = none → s.i = 0
  printed : s.printed = []

variable {s s' : State τ} {t : τ}

@[simp] theorem setPc_pc_self (s : State τ) (t : τ) (pc : Pc) : (s.setPc t pc).pc t = pc :=
  Function.update_self ..

theorem setPc_pc_of_ne {u : τ} (h : u ≠ t) (pc : Pc) : (s.setPc t pc).pc u = s.pc u :=
  Function.update_of_ne h ..

omit [DecidableEq τ] in
theorem guarded_init : Guarded (State.init : State τ) where
  usable := rfl
  writer := fun _ h => absurd rfl h
  alone := fun _ h => nomatch h
  free := fun _ => rfl
  printed := rfl

theorem Guarded.goesOn (h : Guarded s) (hwriter : s.writer = some t) {pc : Pc} {i : ℤ} (halone : pc.Alone i) :
    Guarded ({ s with i := i }.setPc t pc) where
  usable := h.usable
  writer := by
    intro u hu
    by_cases hut : u = t
    · rw [hut]
      exact hwriter
    · rw [setPc_pc_of_ne hut] at hu
      exact h.writer u hu
  alone := by
    intro u hu
    have hut : u = t := Option.some.inj (hu.symm.trans hwriter)
    rw [hut, setPc_pc_self]
    exact halone
  free := fun hnone => nomatch hnone.symm.trans hwriter
  printed := h.printed

theorem Guarded.unlock (h : Guarded s) (hwriter : s.writer = some t) (hi : s.i = 0) :
    Guarded ({ s with writer := none }.setPc t .outside) where
  usable := h.usable
  writer := by
    intro u hu
    by_cases hut : u = t
    · rw [hut, setPc_pc_self] at hu
      exact absurd rfl hu
    · rw [setPc_pc_of_ne hut] at hu
      exact absurd (Option.some.inj ((h.writer u hu).symm.trans hwriter)) hut
  alone := fun _ hnone => nomatch hnone
  free := fun _ => hi
  printed := h.printed

theorem Guarded.lock (h : Guarded s) (hfree : s.writer = none) :
    Guarded ({ s with writer := some t }.setPc t .entered) where
  usable := h.usable
  writer := by
    intro u hu
    by_cases hut : u = t
    · rw [hut]
      rfl
    · rw [setPc_pc_of_ne hut] at hu
      exact nomatch (h.writer u hu).symm.trans hfree
  alone := by
    intro u hu
    rw [← Option.some.inj hu, setPc_pc_self]
    exact h.free hfree
  free := fun hnone => nomatch hnone
  printed := h.printed

/-- Behind the lock, one case for each place of the loop. -/
theorem Guarded.advance (h : Guarded s) (hstep : advance s t = some s') : Guarded s' := by
  rw [LockedCounter.advance] at hstep
  have hinside : s.pc t ≠ .outside → s.writer = some t ∧ (s.pc t).Alone s.i :=
    fun hne => ⟨h.writer t hne, h.alone t (h.writer t hne)⟩
  cases hpc : s.pc t with
  | outside =>
    rw [hpc] at hstep
    cases hstep
  | entered =>
    rw [hpc] at hstep hinside
    cases hstep
    obtain ⟨hwriter, halone⟩ := hinside (by decide)
    exact h.goesOn hwriter ⟨halone, halone⟩
  | loaded value =>
    rw [hpc] at hstep hinside
    dsimp only at hstep
    obtain ⟨hwriter, hvalue, -⟩ := hinside Pc.noConfusion
    split at hstep
    · cases hstep
      exact h.goesOn hwriter (show value + 1 = 1 by omega)
    · cases hstep
  | raised =>
    rw [hpc] at hstep hinside
    obtain ⟨hwriter, halone⟩ := hinside (by decide)
    have hone : ¬s.i > 1 := by
      rw [halone]
      decide
    rw [if_neg hone] at hstep
    cases hstep
    exact h.goesOn hwriter halone
  | checked =>
    rw [hpc] at hstep hinside
    cases hstep
    obtain ⟨hwriter, halone⟩ := hinside (by decide)
    exact h.goesOn hwriter ⟨halone, halone⟩
  | reloaded value =>
    rw [hpc] at hstep hinside
    dsimp only at hstep
    obtain ⟨hwriter, hvalue, -⟩ := hinside Pc.noConfusion
    split at hstep
    · cases hstep
      exact h.goesOn hwriter (show value - 1 = 0 by omega)
    · cases hstep
  | lowered =>
    rw [hpc] at hstep hinside
    obtain ⟨hwriter, halone⟩ := hinside (by decide)
    rw [if_pos hwriter] at hstep
    cases hstep
    exact h.unlock hwriter halone

theorem Guarded.step {e : Event τ} (h : Guarded s) (hstep : step false s e = some s') : Guarded s' := by
  cases e with
  | wrlock t acquired =>
    cases acquired with
    | true =>
      rw [LockedCounter.step] at hstep
      split at hstep
      · next hfree =>
        cases hstep
        exact h.lock hfree.2
      · cases hstep
    | false =>
      rw [LockedCounter.step, h.usable] at hstep
      split at hstep
      · next hdestroyed => cases hdestroyed.2
      · cases hstep
  | advance t => exact h.advance hstep
  | destroy =>
    cases hstep
    exact ⟨by rw [h.usable]; rfl, h.writer, h.alone, h.free, h.printed⟩

/-- No two threads are between taking the lock and giving it back, and nobody has met another. -/
def Excludes (s : State τ) : Prop :=
  (∀ t u, s.pc t ≠ .outside → s.pc u ≠ .outside → t = u) ∧ (s.i = 0 ∨ s.i = 1) ∧ s.printed = []

theorem Pc.Alone.zero_or_one {pc : Pc} {i : ℤ} (h : pc.Alone i) : i = 0 ∨ i = 1 := by
  cases pc with
  | outside => exact h.elim
  | entered => exact .inl h
  | loaded value => exact .inl h.2
  | raised => exact .inr h
  | checked => exact .inr h
  | reloaded value => exact .inr h.2
  | lowered => exact .inl h

omit [DecidableEq τ] in
theorem Guarded.excludes (h : Guarded s) : Excludes s := by
  refine ⟨?_, ?_, h.printed⟩
  · intro t u ht hu
    exact Option.some.inj ((h.writer t ht).symm.trans (h.writer u hu))
  · cases hwriter : s.writer with
    | none => exact .inl (h.free hwriter)
    | some t => exact (h.alone t hwriter).zero_or_one

/-- The main thread destroys the lock before the first of two threads takes it; the second one finds
the count of the first. -/
def meeting (t u : τ) : List (Event τ) :=
  [.destroy, .wrlock t false, .advance t, .advance t, .wrlock u false, .advance u, .advance u, .advance u]

theorem run_meeting {u : τ} (h : t ≠ u) : ∃ s, run (step true) State.init (meeting t u) = some s ∧ s.printed = [u] := by
  have hne : u ≠ t := h.symm
  simp [run, meeting, LockedCounter.step, LockedCounter.advance, State.init, State.setPc, Function.update, hne,
    intMax]

/-- However many threads there are and in whatever order they go on: they keep apart in every run
exactly if destroying the lock under them has no effect. -/
theorem excludes_iff {u : τ} (h : t ≠ u) (effect : Bool) :
    (∀ (es : List (Event τ)) (s : State τ), run (step effect) State.init es = some s → Excludes s) ↔
      effect = false := by
  constructor
  · intro hall
    cases effect with
    | false => rfl
    | true =>
      obtain ⟨s, hrun, hprinted⟩ := run_meeting h
      have hnone := (hall _ s hrun).2.2
      rw [hprinted] at hnone
      cases hnone
  · intro heffect es s hrun
    rw [heffect] at hrun
    exact (invariant_run (P := Guarded) (fun _ _ _ hs _ hstep => hs.step hstep) guarded_init
      (@along_of_forall _ _ (LockedCounter.step false) (fun _ _ => True) (fun _ _ => trivial) _ es) hrun).excludes

theorem excludes_iff_main : (∀ (es : List (Event Bool)) (s : State Bool),
    run (step false) State.init es = some s → Excludes s) ↔ false = false :=
  excludes_iff (by decide : (false : Bool) ≠ true) false

end WorkCode.LockedCounter
