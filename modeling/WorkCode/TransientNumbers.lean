import WorkCode.ByteMemory
import WorkCode.EventRuns
import Mathlib.Logic.Function.Basic

/-!
# Transient program numbers

`gettransient` of the RPC client asks the portmapper for one program number after the
other, from a counter that every process starts at the same value, until one is not yet
registered. Any number of processes do this at the same time; `pmap_set` is the only
thing they share, and it is atomic.
-/

namespace WorkCode.TransientNumbers

open EventRuns

abbrev ULong (abi : Abi) := BitVec (8 * abi.longBytes)

/-- `u_short portnum` -/
abbrev Port := BitVec 16

variable {abi : Abi}

structure Key (abi : Abi) where
  prog : ULong abi
  vers : ULong abi
  proto : BitVec 32
  deriving DecidableEq

abbrev Table (abi : Abi) := Key abi → Option Port

/-- `pmap_set`: it succeeds exactly when nothing is registered under the key. -/
def pmapSet (table : Table abi) (key : Key abi) (port : Port) : Option (Table abi) :=
  if (table key).isNone then some (Function.update table key (some port)) else none

/-- A call of `gettransient`: its arguments, with the registrations there were when it
began and the keys it has registered itself. -/
structure Call (abi : Abi) where
  proto : BitVec 32
  vers : ULong abi
  portnum : Port
  before : Table abi
  registered : List (Key abi)

def Call.key (call : Call abi) (prog : ULong abi) : Key abi := ⟨prog, call.vers, call.proto⟩

/-- A process: `static u_long prognum`, and the call it is in. -/
structure Process (abi : Abi) where
  prognum : ULong abi
  call : Option (Call abi)

structure Return (abi : Abi) where
  call : Call abi
  value : BitVec 32

structure State (abi : Abi) where
  table : Table abi
  procs : ℕ → Process abi
  returns : List (Return abi)

inductive Event (abi : Abi)
  | gettransient (pid : ℕ) (proto : BitVec 32) (vers : ULong abi) (portnum : Port)
  | pmapSet (pid : ℕ)
  | otherPmapSet (key : Key abi) (port : Port)

def init (table : Table abi) : State abi := ⟨table, fun _ => ⟨0x40000000, none⟩, []⟩

def State.setProc (s : State abi) (pid : ℕ) (proc : Process abi) : State abi :=
  { s with procs := Function.update s.procs pid proc }

/-- One step of a process or of another program: a call begins, or its loop makes one call
of `pmap_set(prognum++, …)` and returns `prognum - 1` if that succeeds. -/
def step (s : State abi) : Event abi → Option (State abi)
  | .gettransient pid proto vers portnum => match s.procs pid with
    | ⟨prognum, none⟩ => some (s.setProc pid ⟨prognum, some ⟨proto, vers, portnum, s.table, []⟩⟩)
    | _ => none
  | .pmapSet pid => match s.procs pid with
    | ⟨prog, some call⟩ =>
      let prognum := prog + 1
      match pmapSet s.table (call.key prog) call.portnum with
      | none => some (s.setProc pid ⟨prognum, some call⟩)
      | some table =>
        let call := { call with registered := call.registered ++ [call.key prog] }
        let s := s.setProc pid ⟨prognum, none⟩
        some { s with table := table, returns := s.returns ++ [⟨call, (prognum - 1).setWidth 32⟩] }
    | _ => none
  | .otherPmapSet key port => some { s with table := (pmapSet s.table key port).getD s.table }

/-- For the call that is about to ask, a number below `2 ^ 31` that its counter can still
reach is free. -/
def FreeRemains (s : State abi) : Event abi → Prop
  | .pmapSet pid => ∀ call, (s.procs pid).call = some call →
    ∃ prog : ULong abi, (s.procs pid).prognum.toNat ≤ prog.toNat ∧ prog.toNat < 2 ^ 31 ∧
      s.table (call.key prog) = none
  | _ => True

/-- The number that was returned was not registered before the call, it is registered to
the caller's port, and the call registered nothing else. -/
def Return.Correct (r : Return abi) (table : Table abi) : Prop :=
  ∃ prog : ULong abi, r.value.toInt = prog.toNat ∧ r.call.before (r.call.key prog) = none ∧
    table (r.call.key prog) = some r.call.portnum ∧ r.call.registered = [r.call.key prog]

def Distinct (r r' : Return abi) : Prop :=
  r.call.vers = r'.call.vers → r.call.proto = r'.call.proto → r.value ≠ r'.value

structure Safe (s : State abi) : Prop where
  returned : ∀ r ∈ s.returns, r.Correct s.table
  running : ∀ pid call, (s.procs pid).call = some call → call.registered = []
  distinct : s.returns.Pairwise Distinct

/-- With the safety of the returns: nothing that was registered when a call began has
become free since. -/
structure Inv (s : State abi) : Prop extends Safe s where
  before : ∀ pid call, (s.procs pid).call = some call →
    ∀ key, s.table key = none → call.before key = none

theorem pmapSet_eq_some_iff {table table' : Table abi} {key : Key abi} {port : Port} :
    pmapSet table key port = some table' ↔
      table key = none ∧ table' = Function.update table key (some port) := by
  cases hkey : table key with
  | none => simp [pmapSet, hkey, eq_comm]
  | some registered => simp [pmapSet, hkey]

theorem table_of_pmapSet {table table' : Table abi} {key : Key abi} {port : Port}
    (h : pmapSet table key port = some table') {key' : Key abi} {port' : Port}
    (hkey' : table key' = some port') : table' key' = some port' := by
  obtain ⟨hfree, rfl⟩ := pmapSet_eq_some_iff.mp h
  have hne : key' ≠ key := by
    intro heq
    rw [heq, hfree] at hkey'
    cases hkey'
  rw [Function.update_of_ne hne, hkey']

theorem Return.Correct.mono {r : Return abi} {table table' : Table abi} (h : r.Correct table)
    (hmono : ∀ key port, table key = some port → table' key = some port) : r.Correct table' := by
  obtain ⟨prog, hvalue, hbefore, htable, hregistered⟩ := h
  exact ⟨prog, hvalue, hbefore, hmono _ _ htable, hregistered⟩

theorem inv_init (table : Table abi) : Inv (init table) where
  returned := by
    intro r hr
    cases hr
  running := by
    intro pid call hcall
    cases hcall
  distinct := .nil
  before := by
    intro pid call hcall
    cases hcall

theorem call_setProc {s : State abi} {pid pid' : ℕ} {proc : Process abi} {call : Call abi}
    (h : ((s.setProc pid proc).procs pid').call = some call) :
    proc.call = some call ∨ (s.procs pid').call = some call := by
  by_cases hpid : pid' = pid
  · left
    simpa [State.setProc, hpid] using h
  · right
    simpa [State.setProc, Function.update_of_ne hpid] using h

/-- `prognum - 1` after the increment is the number that was registered, and as an `int`
it is the same number below `2 ^ 31`. -/
theorem toInt_returned {prog : ULong abi} (h : prog.toNat < 2 ^ 31) :
    (((prog + 1) - 1).setWidth 32).toInt = prog.toNat := by
  have hlow : (prog.setWidth 32).toNat = prog.toNat := by
    rw [BitVec.toNat_setWidth, Nat.mod_eq_of_lt (by omega)]
  rw [BitVec.add_sub_cancel, BitVec.toInt_eq_toNat_of_lt (by omega), hlow]

theorem Inv.gettransient {s : State abi} (hs : Inv s) (pid : ℕ) (prognum : ULong abi)
    (proto : BitVec 32) (vers : ULong abi) (portnum : Port) :
    Inv (s.setProc pid ⟨prognum, some ⟨proto, vers, portnum, s.table, []⟩⟩) where
  returned := hs.returned
  running := by
    intro pid' call hcall
    rcases call_setProc hcall with hnew | hold
    · cases hnew
      rfl
    · exact hs.running pid' call hold
  distinct := hs.distinct
  before := by
    intro pid' call hcall key hkey
    rcases call_setProc hcall with hnew | hold
    · cases hnew
      exact hkey
    · exact hs.before pid' call hold key hkey

theorem Inv.refused {s : State abi} (hs : Inv s) {pid : ℕ} {call : Call abi}
    (hcall : (s.procs pid).call = some call) (prognum : ULong abi) :
    Inv (s.setProc pid ⟨prognum, some call⟩) := by
  have hsame : ∀ pid' call', ((s.setProc pid ⟨prognum, some call⟩).procs pid').call = some call' →
      ∃ pid'', (s.procs pid'').call = some call' := by
    intro pid' call' hcall'
    rcases call_setProc hcall' with hnew | hold
    · exact ⟨pid, hcall.trans hnew⟩
    · exact ⟨pid', hold⟩
  refine ⟨⟨hs.returned, ?_, hs.distinct⟩, ?_⟩
  · intro pid' call' hcall'
    obtain ⟨pid'', hold⟩ := hsame pid' call' hcall'
    exact hs.running pid'' call' hold
  · intro pid' call' hcall'
    obtain ⟨pid'', hold⟩ := hsame pid' call' hcall'
    exact hs.before pid'' call' hold

theorem Inv.registered {s : State abi} (hs : Inv s) {table : Table abi}
    (hmono : ∀ key port, s.table key = some port → table key = some port) :
    Inv { s with table := table } where
  returned := fun r hr => (hs.returned r hr).mono hmono
  running := hs.running
  distinct := hs.distinct
  before := by
    intro pid call hcall key hkey
    apply hs.before pid call hcall key
    cases hold : s.table key with
    | none => rfl
    | some port =>
      change table key = none at hkey
      rw [hmono key port hold] at hkey
      cases hkey

theorem Inv.succeeded {s : State abi} (hs : Inv s) {pid : ℕ} {prog : ULong abi} {call : Call abi}
    (hproc : s.procs pid = ⟨prog, some call⟩) (hlt : prog.toNat < 2 ^ 31) {table : Table abi}
    (hset : pmapSet s.table (call.key prog) call.portnum = some table) (prognum : ULong abi) :
    Inv { s.setProc pid ⟨prognum, none⟩ with
      table := table
      returns := s.returns ++
        [⟨{ call with registered := call.registered ++ [call.key prog] }, ((prog + 1) - 1).setWidth 32⟩] } := by
  obtain ⟨hfree, htable⟩ := pmapSet_eq_some_iff.mp hset
  have hcall : (s.procs pid).call = some call := by rw [hproc]
  have hgrown := hs.registered fun key port => table_of_pmapSet hset
  have hrunning : ∀ pid' call', ((s.setProc pid ⟨prognum, none⟩).procs pid').call = some call' →
      (s.procs pid').call = some call' := by
    intro pid' call' hcall'
    rcases call_setProc hcall' with hnew | hold
    · cases hnew
    · exact hold
  refine ⟨⟨?_, ?_, ?_⟩, ?_⟩
  · intro r hr
    rcases List.mem_append.mp hr with hold | hnew
    · exact hgrown.returned r hold
    · rw [List.mem_singleton.mp hnew]
      refine ⟨prog, toInt_returned hlt, hs.before pid call hcall _ hfree, ?_, ?_⟩
      · change table (call.key prog) = some call.portnum
        rw [htable, Function.update_self]
      · change call.registered ++ [call.key prog] = [call.key prog]
        rw [hs.running pid call hcall, List.nil_append]
  · intro pid' call' hcall'
    exact hs.running pid' call' (hrunning pid' call' hcall')
  · rw [List.pairwise_append]
    refine ⟨hs.distinct, List.pairwise_singleton _ _, ?_⟩
    intro r hr r' hr' hvers hproto hvalue
    rw [List.mem_singleton.mp hr'] at hvers hproto hvalue
    -- the old number is registered, the new one was free
    obtain ⟨prog', hvalue', -, hregistered, -⟩ := hs.returned r hr
    have hnat : prog'.toNat = prog.toNat := by
      have hnew := toInt_returned hlt
      rw [hvalue, hnew] at hvalue'
      omega
    have hkey : r.call.key prog' = call.key prog := by
      rw [Call.key, Call.key, BitVec.eq_of_toNat_eq hnat, hvers, hproto]
    rw [hkey, hfree] at hregistered
    cases hregistered
  · intro pid' call' hcall'
    exact hgrown.before pid' call' (hrunning pid' call' hcall')

theorem Inv.step {s s' : State abi} (hs : Inv s) {e : Event abi} (hfree : FreeRemains s e)
    (h : step s e = some s') : Inv s' := by
  cases e with
  | gettransient pid proto vers portnum =>
    simp only [TransientNumbers.step] at h
    split at h
    · cases h
      exact hs.gettransient pid _ proto vers portnum
    · cases h
  | pmapSet pid =>
    simp only [TransientNumbers.step] at h
    split at h
    · next prog call hproc =>
      have hcall : (s.procs pid).call = some call := by rw [hproc]
      split at h
      · cases h
        exact hs.refused hcall _
      · next table hset =>
        cases h
        obtain ⟨prog', hle, hlt, -⟩ := hfree call hcall
        rw [hproc] at hle
        exact hs.succeeded hproc (Nat.lt_of_le_of_lt hle hlt) hset _
    · cases h
  | otherPmapSet key port =>
    cases h
    apply hs.registered
    intro key' port' hkey'
    cases hset : TransientNumbers.pmapSet s.table key port with
    | none => exact hkey'
    | some table => exact table_of_pmapSet hset hkey'

/-- As long as free numbers remain, in every interleaving: a number that is returned was
free before the call and is registered to the caller's port afterwards, no call registers
another one, and no two calls for one version and protocol return the same. -/
theorem gettransient_safe (table : Table abi) (es : List (Event abi)) (s : State abi)
    (hfree : Along step FreeRemains (init table) es) (hrun : run step (init table) es = some s) :
    Safe s :=
  (invariant_run (fun _ _ _ hs hok h => Inv.step hs hok h) (inv_init table) hfree hrun).toSafe

/-- Two processes ask at the same time; the second finds the first number taken. -/
def twoProcesses : List (Event (Abi.lp64 .little)) :=
  [.gettransient 0 17 1 1000, .gettransient 1 17 1 2000, .pmapSet 0, .pmapSet 1, .pmapSet 1]

theorem gettransient_safe_twoProcesses :
    ∃ s, run step (init fun _ => none) twoProcesses = some s ∧
      s.returns.map (·.value) = [0x40000000, 0x40000001] ∧ Safe s := by
  have hfree : Along step FreeRemains (init fun _ => none) twoProcesses := by
    refine ⟨trivial, fun s₁ h₁ => ?_⟩
    cases h₁
    refine ⟨trivial, fun s₂ h₂ => ?_⟩
    cases h₂
    refine ⟨fun call hcall => ⟨0x50000000, by decide, by decide, ?_⟩, fun s₃ h₃ => ?_⟩
    · cases hcall
      rfl
    cases h₃
    refine ⟨fun call hcall => ⟨0x50000000, by decide, by decide, ?_⟩, fun s₄ h₄ => ?_⟩
    · cases hcall
      rfl
    cases h₄
    refine ⟨fun call hcall => ⟨0x50000000, by decide, by decide, ?_⟩, fun s₅ h₅ => trivial⟩
    cases hcall
    rfl
  exact ⟨_, rfl, rfl, gettransient_safe _ twoProcesses _ hfree rfl⟩

end WorkCode.TransientNumbers
