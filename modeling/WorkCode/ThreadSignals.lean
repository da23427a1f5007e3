import WorkCode.EventRuns
import Mathlib.Logic.Function.Basic
import Mathlib.Data.List.Basic

/-!
# Stopping threads by signals

The threads of `pthread_signal.c` run a loop until `SIGUSR1` puts them into a handler that
waits for ever; `SIGCONT` is meant to let them go on. Its handler runs on top of the one
that waits and returns into it.
-/

namespace WorkCode.ThreadSignals

open EventRuns

inductive Signal | SIGUSR1 | SIGCONT deriving DecidableEq

inductive Handler | sigHandler | null deriving DecidableEq

def Signal.handler : Signal → Handler
  | SIGUSR1 => .sigHandler
  | SIGCONT => .null

/-- `sig_handler` ends in `while(1);`. The `printf` of `null` is taken to return, also where it
interrupts another one. -/
def Handler.returns : Handler → Bool
  | sigHandler => false
  | null => true

/-- A thread in `test`: its loop counter, the handlers that it runs, innermost first, its
pending signals, and the signals delivered to it so far. -/
structure Thread where
  i : BitVec 32
  stack : List Handler
  pending : Signal → Bool
  delivered : List Signal

/-- A signal is blocked while its handler runs. -/
def Thread.blocked (thread : Thread) (sig : Signal) : Prop := sig.handler ∈ thread.stack

instance (thread : Thread) (sig : Signal) : Decidable (thread.blocked sig) :=
  inferInstanceAs (Decidable (_ ∈ _))

abbrev State := ℕ → Thread

def init : State := fun _ => ⟨0, [], fun _ => false, []⟩

/-- What can happen to a thread: it is sent a signal, a signal is delivered to it, its
innermost handler returns, or it goes once through its loop. -/
inductive Event
  | pthreadKill (t : ℕ) (sig : Signal)
  | deliver (t : ℕ) (sig : Signal)
  | handlerReturns (t : ℕ)
  | running (t : ℕ)

/-- One step, `none` when it is not possible. A signal that is pending or blocked is not
queued. -/
def step (s : State) : Event → Option State
  | .pthreadKill t sig =>
    some (Function.update s t { s t with pending := Function.update (s t).pending sig true })
  | .deliver t sig =>
    if (s t).pending sig = true ∧ ¬ (s t).blocked sig then
      some (Function.update s t { s t with
        stack := sig.handler :: (s t).stack
        pending := Function.update (s t).pending sig false
        delivered := (s t).delivered ++ [sig] })
    else none
  | .handlerReturns t => match (s t).stack with
    | handler :: stack =>
      if handler.returns then some (Function.update s t { s t with stack := stack }) else none
    | [] => none
  | .running t =>
    if (s t).stack = [] then some (Function.update s t { s t with i := (s t).i + 1 }) else none

def Thread.settled (thread : Thread) : List Handler := thread.stack.dropWhile Handler.returns

/-- The thread is in its loop if the last signal delivered was `SIGCONT` or there was none,
and in `sig_handler` if it was `SIGUSR1`. -/
def Thread.Right (thread : Thread) : Prop :=
  match thread.delivered.getLast? with
  | none | some .SIGCONT => thread.settled = []
  | some .SIGUSR1 => thread.settled.head? = some .sigHandler

/-- No `SIGCONT` is delivered to a thread that `SIGUSR1` has been delivered to. -/
def NotReleased (s : State) : Event → Prop
  | .deliver t .SIGCONT => .SIGUSR1 ∉ (s t).delivered
  | _ => True

/-- A thread that has been stopped has not left `sig_handler`. -/
def Inv (s : State) : Prop :=
  ∀ t, Handler.sigHandler ∈ (s t).stack ↔ Signal.SIGUSR1 ∈ (s t).delivered

/-- The first handler that stays is the one that never returns. -/
theorem settled_spec (thread : Thread) :
    (Handler.sigHandler ∉ thread.stack ∧ thread.settled = []) ∨
      (Handler.sigHandler ∈ thread.stack ∧ thread.settled.head? = some .sigHandler) := by
  rw [Thread.settled]
  induction thread.stack with
  | nil => simp
  | cons handler stack ih =>
    cases handler with
    | sigHandler => simp [Handler.returns]
    | null =>
      rw [List.dropWhile_cons_of_pos rfl]
      simpa using ih

theorem settled_eq_nil_iff (thread : Thread) :
    thread.settled = [] ↔ .sigHandler ∉ thread.stack := by
  rcases settled_spec thread with ⟨hout, hnil⟩ | ⟨hin, hhead⟩
  · exact iff_of_true hnil hout
  · refine iff_of_false ?_ (not_not_intro hin)
    intro hnil
    rw [hnil] at hhead
    cases hhead

theorem head?_settled_iff (thread : Thread) :
    thread.settled.head? = some .sigHandler ↔ .sigHandler ∈ thread.stack := by
  rcases settled_spec thread with ⟨hout, hnil⟩ | ⟨hin, hhead⟩
  · simp [hout, hnil]
  · exact iff_of_true hhead hin

theorem exists_run_settled (s : State) (t : ℕ) :
    ∃ n s', run step s (List.replicate n (.handlerReturns t)) = some s' ∧
      (s' t).stack = (s t).settled ∧ (s' t).delivered = (s t).delivered := by
  obtain ⟨stack, hstack⟩ : ∃ stack, stack = (s t).stack := ⟨_, rfl⟩
  induction stack generalizing s with
  | nil => exact ⟨0, s, rfl, by rw [Thread.settled, ← hstack]; rfl, rfl⟩
  | cons handler stack ih =>
    cases hreturns : handler.returns with
    | false =>
      refine ⟨0, s, rfl, ?_, rfl⟩
      rw [Thread.settled, ← hstack, List.dropWhile_cons_of_neg (by rw [hreturns]; exact Bool.false_ne_true)]
    | true =>
      have hstep : step s (.handlerReturns t) =
          some (Function.update s t { s t with stack := stack }) := by
        simp only [step, ← hstack, hreturns, if_true]
      obtain ⟨n, s', hrun, hsettled, hdelivered⟩ :=
        ih (Function.update s t { s t with stack := stack }) (by rw [Function.update_self])
      rw [Function.update_self] at hsettled hdelivered
      refine ⟨n + 1, s', ?_, ?_, hdelivered⟩
      · rw [List.replicate_succ, run, hstep]
        exact hrun
      · rw [hsettled, Thread.settled, Thread.settled, ← hstack, List.dropWhile_cons_of_pos hreturns]

/-- What was delivered decides: a thread that has been stopped is right only as long as that
was the last signal. -/
theorem Inv.right_iff {s : State} (hs : Inv s) (t : ℕ) :
    (s t).Right ↔ (.SIGUSR1 ∈ (s t).delivered → (s t).delivered.getLast? = some .SIGUSR1) := by
  rw [Thread.Right]
  split
  · next hlast =>
    rw [settled_eq_nil_iff, hs t, List.getLast?_eq_none_iff.mp hlast]
    simp
  · next hlast =>
    rw [settled_eq_nil_iff, hs t, hlast]
    simp
  · next hlast =>
    rw [head?_settled_iff, hs t, hlast]
    simp [List.mem_of_getLast? hlast]

theorem inv_init : Inv init := by
  intro t
  simp [init]

theorem Inv.update {s : State} (hs : Inv s) {t : ℕ} {thread : Thread}
    (h : Handler.sigHandler ∈ thread.stack ↔ Signal.SIGUSR1 ∈ thread.delivered) :
    Inv (Function.update s t thread) := by
  intro t'
  by_cases ht : t' = t
  · rw [ht, Function.update_self]
    exact h
  · rw [Function.update_of_ne ht]
    exact hs t'

/-- What a step can do: deliver a signal that is not blocked, or change one thread without
stopping or releasing it. -/
theorem step_cases {s s' : State} {e : Event} (h : step s e = some s') :
    (∃ t sig thread, e = .deliver t sig ∧ ¬ (s t).blocked sig ∧ s' = Function.update s t thread ∧
      thread.stack = sig.handler :: (s t).stack ∧ thread.delivered = (s t).delivered ++ [sig]) ∨
    (∃ t thread, s' = Function.update s t thread ∧ thread.delivered = (s t).delivered ∧
      (Handler.sigHandler ∈ thread.stack ↔ Handler.sigHandler ∈ (s t).stack) ∧ NotReleased s e) := by
  cases e with
  | pthreadKill t sig =>
    right
    cases h
    exact ⟨t, _, rfl, rfl, Iff.rfl, trivial⟩
  | deliver t sig =>
    left
    simp only [step] at h
    split at h
    · next hpossible =>
      cases h
      exact ⟨t, sig, _, rfl, hpossible.2, rfl, rfl, rfl⟩
    · cases h
  | handlerReturns t =>
    right
    simp only [step] at h
    split at h
    · next handler stack hstack =>
      split at h
      · next hreturns =>
        cases h
        refine ⟨t, _, rfl, rfl, ?_, trivial⟩
        rw [hstack, List.mem_cons, iff_or_self]
        intro hsame
        rw [← hsame] at hreturns
        cases hreturns
      · cases h
    · cases h
  | running t =>
    right
    simp only [step] at h
    split at h
    · cases h
      exact ⟨t, _, rfl, rfl, Iff.rfl, trivial⟩
    · cases h

theorem Inv.step {s s' : State} (hs : Inv s) {e : Event} (h : step s e = some s') : Inv s' := by
  rcases step_cases h with ⟨t, sig, thread, -, -, rfl, hstack, hdelivered⟩ |
    ⟨t, thread, rfl, hdelivered, hstack, -⟩
  · apply hs.update
    rw [hstack, hdelivered, List.mem_cons, List.mem_append, List.mem_singleton, hs t]
    cases sig with
    | SIGUSR1 => simp [Signal.handler]
    | SIGCONT => simp [Signal.handler]
  · apply hs.update
    rw [hstack, hdelivered]
    exact hs t

theorem right_update_iff {s : State} (hs : Inv s) {t : ℕ} {thread : Thread}
    (hinv : Inv (Function.update s t thread)) (hsame : thread.delivered = (s t).delivered) :
    (∀ t', (Function.update s t thread t').Right) ↔ ∀ t', (s t').Right := by
  apply forall_congr'
  intro t'
  rw [hinv.right_iff, hs.right_iff]
  by_cases ht : t' = t
  · rw [ht, Function.update_self, hsame]
  · rw [Function.update_of_ne ht]

/-- A delivery changes what is right for its thread only. -/
theorem right_deliver_iff {s : State} (hs : Inv s) {t : ℕ} {sig : Signal} {thread : Thread}
    (hinv : Inv (Function.update s t thread)) (hdelivered : thread.delivered = (s t).delivered ++ [sig])
    (hblocked : ¬ (s t).blocked sig) :
    (∀ t', (Function.update s t thread t').Right) ↔
      (∀ t', (s t').Right) ∧ NotReleased s (.deliver t sig) := by
  have hother : ∀ t' ≠ t, (Function.update s t thread t').Right ↔ (s t').Right := by
    intro t' ht
    rw [hinv.right_iff, hs.right_iff, Function.update_of_ne ht]
  have hself : (Function.update s t thread t).Right ↔
      (s t).Right ∧ NotReleased s (.deliver t sig) := by
    rw [hinv.right_iff, hs.right_iff, Function.update_self, hdelivered, List.getLast?_concat]
    cases sig with
    | SIGUSR1 =>
      have hnew : Signal.SIGUSR1 ∉ (s t).delivered := by
        rw [← hs t]
        exact hblocked
      simp [NotReleased, hnew]
    | SIGCONT =>
      simp only [List.mem_append, List.mem_singleton, reduceCtorEq, or_false, Option.some.injEq,
        imp_false, NotReleased]
      exact ⟨fun h => ⟨fun hmem => absurd hmem h, h⟩, fun h => h.2⟩
  constructor
  · intro h
    refine ⟨?_, (hself.mp (h t)).2⟩
    intro t'
    by_cases ht : t' = t
    · rw [ht]
      exact (hself.mp (h t)).1
    · exact (hother t' ht).mp (h t')
  · intro h t'
    by_cases ht : t' = t
    · rw [ht]
      exact hself.mpr ⟨h.1 t, h.2⟩
    · exact (hother t' ht).mpr (h.1 t')

theorem Inv.right_step_iff {s s' : State} (hs : Inv s) {e : Event}
    (h : ThreadSignals.step s e = some s') :
    (∀ t, (s' t).Right) ↔ (∀ t, (s t).Right) ∧ NotReleased s e := by
  have hinv := hs.step h
  rcases step_cases h with ⟨t, sig, thread, rfl, hblocked, rfl, -, hdelivered⟩ |
    ⟨t, thread, rfl, hdelivered, -, hok⟩
  · exact right_deliver_iff hs hinv hdelivered hblocked
  · rw [right_update_iff hs hinv hdelivered]
    exact (and_iff_left hok).symm

/-- In a run all threads are where the last signal wants them exactly if none of them is
ever to be released. -/
theorem right_iff_notReleased (es : List Event) (s : State) (hrun : run step init es = some s) :
    (∀ t, (s t).Right) ↔ Along step NotReleased init es := by
  have hstart : ∀ t, (init t).Right := by
    intro t
    rfl
  rw [run_iff (fun _ _ _ hs h => Inv.step hs h) (fun _ _ _ hs h => Inv.right_step_iff hs h)
    inv_init hrun]
  exact and_iff_right hstart

def stopped : List Event := [.pthreadKill 0 .SIGUSR1, .deliver 0 .SIGUSR1]

theorem right_iff_notReleased_stopped :
    ∃ s, run step init stopped = some s ∧
      ((∀ t, (s t).Right) ↔ Along step NotReleased init stopped) :=
  ⟨_, rfl, right_iff_notReleased stopped _ rfl⟩

/-- The first cycle of `worker`: it stops both threads, and wants both to go on. -/
def workerCycle : List Event :=
  [.pthreadKill 0 .SIGUSR1, .deliver 0 .SIGUSR1, .pthreadKill 1 .SIGUSR1, .deliver 1 .SIGUSR1,
    .pthreadKill 0 .SIGCONT, .deliver 0 .SIGCONT, .handlerReturns 0,
    .pthreadKill 1 .SIGCONT, .deliver 1 .SIGCONT, .handlerReturns 1]

/-- After the first cycle both threads still wait. -/
theorem workerCycle_not_right :
    ¬ ∀ (es : List Event) (s : State), run step init es = some s → ∀ t, (s t).Right := by
  intro h
  have hright := h workerCycle _ rfl 0
  cases hright

end WorkCode.ThreadSignals
