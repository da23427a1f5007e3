import Mathlib.Data.Nat.Notation
import Mathlib.Data.Option.Basic

/-!
# Runs of a step function

A system is a partial step function on states and events, and a run is a list of events
each of which is possible where it happens. Interleavings of parties need no notion of
their own: they are the orders of the events.
-/

namespace WorkCode.EventRuns

variable {σ ε : Type*} (step : σ → ε → Option σ)

/-- The state after a run, `none` when one of its events is not possible. -/
def run : σ → List ε → Option σ
  | s, [] => some s
  | s, e :: es => (step s e).bind (run · es)

/-- Every event of a run meets a condition in the state in which it happens. -/
def Along (ok : σ → ε → Prop) : σ → List ε → Prop
  | _, [] => True
  | s, e :: es => ok s e ∧ ∀ s', step s e = some s' → Along ok s' es

variable {step} {ok : σ → ε → Prop} {s s' : σ} {es : List ε}

theorem along_of_forall (h : ∀ s e, ok s e) (s : σ) (es : List ε) : Along step ok s es := by
  induction es generalizing s with
  | nil => trivial
  | cons e es ih => exact ⟨h s e, fun s' _ => ih s'⟩

theorem along_event_iff {p : ε → Prop} (hrun : run step s es = some s') :
    Along step (fun _ e => p e) s es ↔ ∀ e ∈ es, p e := by
  induction es generalizing s with
  | nil => simp [Along]
  | cons e es ih =>
    obtain ⟨t, ht, hrest⟩ := Option.bind_eq_some_iff.mp hrun
    rw [Along, List.forall_mem_cons, ← ih hrest]
    constructor
    · intro h
      exact ⟨h.1, h.2 t ht⟩
    · intro h
      refine ⟨h.1, fun t' ht' => ?_⟩
      rw [ht] at ht'
      cases ht'
      exact h.2

/-- What every step that meets the condition preserves, a run of such steps preserves. -/
theorem invariant_run {P : σ → Prop} (hstep : ∀ s e s', P s → ok s e → step s e = some s' → P s')
    (hs : P s) (hok : Along step ok s es) (hrun : run step s es = some s') : P s' := by
  induction es generalizing s with
  | nil =>
    cases hrun
    exact hs
  | cons e es ih =>
    obtain ⟨t, ht, hrest⟩ := Option.bind_eq_some_iff.mp hrun
    exact ih (hstep s e t hs hok.1 ht) (hok.2 t ht) hrest

/-- When every step from a state with the invariant keeps a property exactly if it meets the
condition, a run keeps it exactly if all its steps do. -/
theorem run_iff {I P : σ → Prop} (hinv : ∀ s e s', I s → step s e = some s' → I s')
    (hstep : ∀ s e s', I s → step s e = some s' → (P s' ↔ P s ∧ ok s e))
    (hs : I s) (hrun : run step s es = some s') : P s' ↔ P s ∧ Along step ok s es := by
  induction es generalizing s with
  | nil =>
    cases hrun
    simp [Along]
  | cons e es ih =>
    obtain ⟨t, ht, hrest⟩ := Option.bind_eq_some_iff.mp hrun
    have htail : (∀ t', step s e = some t' → Along step ok t' es) ↔ Along step ok t es := by
      constructor
      · intro h
        exact h t ht
      · intro h t' ht'
        rw [ht] at ht'
        cases ht'
        exact h
    rw [ih (hinv s e t hs ht) hrest, hstep s e t hs ht, Along, htail, and_assoc]

/-- When a condition says where a step is possible, a run is possible if all its steps meet it. -/
theorem isSome_run_iff (hstep : ∀ s e, (step s e).isSome ↔ ok s e) (s : σ) (es : List ε) :
    (run step s es).isSome ↔ Along step ok s es := by
  induction es generalizing s with
  | nil => simp [run, Along]
  | cons e es ih =>
    rw [run, Along, ← hstep s e]
    cases step s e with
    | none => simp
    | some t => simp [ih]

section Outputs

variable (step) {α : Type*} (out : σ → ε → List α)

/-- What the events of a run put out, in order. -/
def outputs : σ → List ε → List α
  | _, [] => []
  | s, e :: es => out s e ++ (step s e).elim [] (outputs · es)

variable {step} {out}

theorem outputs_cons {e : ε} {t : σ} (h : step s e = some t) :
    outputs step out s (e :: es) = out s e ++ outputs step out t es := by
  rw [outputs, h, Option.elim]

/-- A list to which every step appends at most its output. -/
theorem run_outputs_sublist {I : σ → Prop} {queue : σ → List α}
    (hinv : ∀ s e s', I s → step s e = some s' → I s')
    (hstep : ∀ s e s', I s → step s e = some s' → (queue s').Sublist (queue s ++ out s e))
    (hs : I s) (hrun : run step s es = some s') :
    (queue s').Sublist (queue s ++ outputs step out s es) := by
  induction es generalizing s with
  | nil =>
    cases hrun
    simp [outputs]
  | cons e es ih =>
    obtain ⟨t, ht, hrest⟩ := Option.bind_eq_some_iff.mp hrun
    have htail := ih (hinv s e t hs ht) hrest
    rw [outputs_cons ht, ← List.append_assoc]
    exact htail.trans ((hstep s e t hs ht).append_right _)

/-- A number that grows with the outputs and falls with the events of one kind. -/
theorem run_outputs_length {I : σ → Prop} {size : σ → ℕ} {takes : ε → Bool}
    (hinv : ∀ s e s', I s → ok s e → step s e = some s' → I s')
    (hstep : ∀ s e s', I s → ok s e → step s e = some s' →
      size s' + (takes e).toNat = size s + (out s e).length)
    (hs : I s) (hok : Along step ok s es) (hrun : run step s es = some s') :
    size s' + es.countP takes = size s + (outputs step out s es).length := by
  induction es generalizing s with
  | nil =>
    cases hrun
    simp [outputs]
  | cons e es ih =>
    obtain ⟨t, ht, hrest⟩ := Option.bind_eq_some_iff.mp hrun
    have hhead := hstep s e t hs hok.1 ht
    have htail := ih (hinv s e t hs hok.1 ht) (hok.2 t ht) hrest
    rw [outputs_cons ht, List.length_append, List.countP_cons]
    cases hte : takes e with
    | false =>
      rw [hte, Bool.toNat_false] at hhead
      rw [if_neg Bool.false_ne_true]
      omega
    | true =>
      rw [hte, Bool.toNat_true] at hhead
      rw [if_pos rfl]
      omega

end Outputs

section Refinement

variable {τ : Type*} (Step : τ → ε → τ → Prop)

inductive Runs : τ → List ε → τ → Prop where
  | nil (a : τ) : Runs a [] a
  | cons {a b c : τ} {e : ε} {es : List ε} (head : Step a e b) (tail : Runs b es c) : Runs a (e :: es) c

variable {Step}

/-- A relation between the states of two systems under which every step of the one is
possible in the other carries over to their runs. -/
theorem simulation_run {R : σ → τ → Prop}
    (hstep : ∀ s a e b, R s a → Step a e b → ∃ s', step s e = some s' ∧ R s' b)
    {a b : τ} (hs : R s a) (hruns : Runs Step a es b) : ∃ s', run step s es = some s' ∧ R s' b := by
  induction hruns generalizing s with
  | nil a => exact ⟨s, rfl, hs⟩
  | cons head tail ih =>
    obtain ⟨t, ht, hrest⟩ := hstep _ _ _ _ hs head
    obtain ⟨s', hrun, hlast⟩ := ih hrest
    refine ⟨s', ?_, hlast⟩
    rw [run, ht]
    exact hrun

/-- The same for a step function that is possible everywhere. -/
theorem simulation_foldl {exec : σ → ε → σ} {R : σ → τ → Prop}
    (hstep : ∀ s a e b, R s a → Step a e b → R (exec s e) b) {a b : τ} (hs : R s a)
    (hruns : Runs Step a es b) : R (es.foldl exec s) b := by
  induction hruns generalizing s with
  | nil a => exact hs
  | cons head tail ih =>
    rw [List.foldl_cons]
    exact ih (hstep _ _ _ _ hs head)

end Refinement

end WorkCode.EventRuns
