import Mathlib.Data.List.Basic

/-!
# Sequences of commands with one fault

Each command of a sequence has a complete effect on the state, and an effect of an attempt
that fails: nothing at all, or a part of its output. The sequence does not look at
failures; it ends early only when it is interrupted.
-/

namespace WorkCode.FaultySequence

variable {σ ω : Type*}

/-- The failed attempt gets how much of each output it would write, `none` when it cannot even
open it. -/
structure Command (σ ω : Type*) where
  complete : σ → σ
  attempt : Option (ω → ℕ) → σ → σ

/-- The command at this position fails; `stops` when the whole sequence ends there. -/
structure Fault (ω : Type*) where
  position : ℕ
  written : Option (ω → ℕ)
  stops : Bool

def runAll (cs : List (Command σ ω)) (s : σ) : σ := cs.foldl (fun s c => c.complete s) s

def runAt (fault : Fault ω) : ℕ → List (Command σ ω) → σ → σ
  | _, [], s => s
  | 0, c :: cs, s => if fault.stops then c.attempt fault.written s else runAll cs (c.attempt fault.written s)
  | n + 1, c :: cs, s => runAt fault n cs (c.complete s)

def run (fault : Fault ω) (cs : List (Command σ ω)) (s : σ) : σ := runAt fault fault.position cs s

theorem runAt_append (fault : Fault ω) (n : ℕ) (before after : List (Command σ ω)) (s : σ) :
    runAt fault (before.length + n) (before ++ after) s = runAt fault n after (runAll before s) := by
  induction before generalizing s with
  | nil => simp [runAll]
  | cons c before ih =>
    have hlength : (c :: before).length + n = (before.length + n) + 1 := by
      rw [List.length_cons, Nat.add_right_comm]
    rw [hlength]
    exact ih (c.complete s)

/-- A fault past the end of the sequence is none. -/
theorem run_of_length_le {fault : Fault ω} {cs : List (Command σ ω)} (h : cs.length ≤ fault.position)
    (s : σ) : run fault cs s = runAll cs s := by
  obtain ⟨n, hn⟩ := Nat.exists_eq_add_of_le h
  have happend := runAt_append fault n cs [] s
  rw [List.append_nil] at happend
  rw [run, hn, happend]
  cases n <;> rfl

end WorkCode.FaultySequence
