import WorkCode.TransientNumbers

/-!
# The client that is called back

One call of `gettransient` against any portmapper, and what `main` of the RPC client does
with the number. The loop of `gettransient` ends with the first registration that succeeds,
however far the counter has come, and never if none does. `main` assigns the result of a
comparison where it is meant to assign the number.
-/

namespace WorkCode.CallbackClient

open EventRuns TransientNumbers

variable {abi : Abi} {σ : Type*}

/-- A portmapper as its client sees it: in each state it answers a `pmap_set`, with whatever
else happens to its state meanwhile. -/
abbrev Portmapper (abi : Abi) (σ : Type*) := σ → Key abi → Port → Bool × σ

/-- What `gettransient` returns, with the key that it registered and what it leaves. -/
structure Result (abi : Abi) (σ : Type*) where
  value : BitVec 32
  registered : Key abi
  prognum : ULong abi
  portmapper : σ

/-- `gettransient`, with the number of attempts it is given; `prognum` is its static
counter. -/
def gettransient (pmapSet : Portmapper abi σ) (proto : BitVec 32) (vers : ULong abi)
    (portnum : Port) : ℕ → ULong abi → σ → Option (Result abi σ)
  | 0, _, _ => none
  | fuel + 1, prognum, s =>
    let key : Key abi := ⟨prognum, vers, proto⟩
    let answer := pmapSet s key portnum
    let prognum := prognum + 1
    if answer.1 then some ⟨(prognum - 1).setWidth 32, key, prognum, answer.2⟩
    else gettransient pmapSet proto vers portnum fuel prognum answer.2

def IPPROTO_UDP : BitVec 32 := 17

/-- How `main` ends or goes on: the number it prints, registers its callback for and sends. -/
inductive Outcome (abi : Abi)
  | noTransport
  | noNumber
  | calls (printed : BitVec 32) (svcRegister : ULong abi) (sent : BitVec 32)

/-- `main` up to `callrpc`; `xp_port` is `none` when `svcudp_create` fails. The comparison
binds stronger than the assignment to `tmp_prog`. -/
def main (pmapSet : Portmapper abi σ) (xp_port : Option Port) (fuel : ℕ) (s : σ) :
    Option (Outcome abi) :=
  match xp_port with
  | none => some .noTransport
  | some port =>
    match gettransient pmapSet IPPROTO_UDP 1 port fuel 0x40000000 s with
    | none => none
    | some result =>
      let tmp_prog : BitVec 32 := if result.value = 0 then 1 else 0
      if tmp_prog ≠ 0 then some .noNumber
      else some (.calls tmp_prog (tmp_prog.signExtend _) tmp_prog)

section Search

variable (pmapSet : Portmapper abi σ) (proto : BitVec 32) (vers : ULong abi) (portnum : Port)
  (prognum : ULong abi) (s : σ)

def stateAt : ℕ → σ
  | 0 => s
  | k + 1 => (pmapSet (stateAt k) ⟨prognum + BitVec.ofNat _ k, vers, proto⟩ portnum).2

def answerAt (k : ℕ) : Bool :=
  (pmapSet (stateAt pmapSet proto vers portnum prognum s k)
    ⟨prognum + BitVec.ofNat _ k, vers, proto⟩ portnum).1

structure FirstSuccess (k : ℕ) : Prop where
  success : answerAt pmapSet proto vers portnum prognum s k = true
  refused : ∀ j < k, answerAt pmapSet proto vers portnum prognum s j = false

def resultAt (k : ℕ) : Result abi σ where
  value := (prognum + BitVec.ofNat _ k).setWidth 32
  registered := ⟨prognum + BitVec.ofNat _ k, vers, proto⟩
  prognum := prognum + BitVec.ofNat _ k + 1
  portmapper := stateAt pmapSet proto vers portnum prognum s (k + 1)

theorem gettransient_from (fuel i : ℕ)
    (hrefused : ∀ j < i, answerAt pmapSet proto vers portnum prognum s j = false)
    (result : Result abi σ) :
    gettransient pmapSet proto vers portnum fuel (prognum + BitVec.ofNat _ i)
        (stateAt pmapSet proto vers portnum prognum s i) = some result ↔
      ∃ k, i ≤ k ∧ k < i + fuel ∧ FirstSuccess pmapSet proto vers portnum prognum s k ∧
        result = resultAt pmapSet proto vers portnum prognum s k := by
  induction fuel generalizing i with
  | zero =>
    simp only [gettransient, reduceCtorEq, false_iff]
    intro h
    obtain ⟨k, hle, hlt, -⟩ := h
    omega
  | succ fuel ih =>
    have hnext : prognum + BitVec.ofNat _ i + 1 = prognum + BitVec.ofNat _ (i + 1) := by
      rw [BitVec.ofNat_add, ← BitVec.add_assoc]
      rfl
    cases hanswer : answerAt pmapSet proto vers portnum prognum s i with
    | true =>
      have hreturn : gettransient pmapSet proto vers portnum (fuel + 1) (prognum + BitVec.ofNat _ i)
          (stateAt pmapSet proto vers portnum prognum s i) =
          some (resultAt pmapSet proto vers portnum prognum s i) := by
        rw [answerAt] at hanswer
        simp only [gettransient, if_pos hanswer, BitVec.add_sub_cancel]
        rfl
      rw [hreturn]
      constructor
      · intro h
        cases h
        exact ⟨i, le_rfl, by omega, ⟨hanswer, hrefused⟩, rfl⟩
      · intro h
        obtain ⟨k, hle, -, hfirst, rfl⟩ := h
        rcases Nat.lt_or_eq_of_le hle with hlt | rfl
        · rw [hfirst.refused i hlt] at hanswer
          cases hanswer
        · rfl
    | false =>
      have hloop : gettransient pmapSet proto vers portnum (fuel + 1) (prognum + BitVec.ofNat _ i)
          (stateAt pmapSet proto vers portnum prognum s i) =
          gettransient pmapSet proto vers portnum fuel (prognum + BitVec.ofNat _ (i + 1))
            (stateAt pmapSet proto vers portnum prognum s (i + 1)) := by
        rw [answerAt] at hanswer
        simp only [gettransient, hanswer, Bool.false_eq_true, if_false, hnext]
        rfl
      have hrefused' : ∀ j < i + 1, answerAt pmapSet proto vers portnum prognum s j = false := by
        intro j hj
        rcases Nat.lt_succ_iff_lt_or_eq.mp hj with hlt | rfl
        · exact hrefused j hlt
        · exact hanswer
      rw [hloop, ih (i + 1) hrefused']
      constructor
      · intro h
        obtain ⟨k, hle, hlt, hfirst⟩ := h
        exact ⟨k, by omega, by omega, hfirst⟩
      · intro h
        obtain ⟨k, hle, hlt, hfirst, hresult⟩ := h
        refine ⟨k, ?_, by omega, hfirst, hresult⟩
        by_contra hlast
        have hk : k = i := by omega
        have hsuccess := hfirst.success
        rw [hk, hanswer] at hsuccess
        cases hsuccess

theorem gettransient_eq_some_iff (fuel : ℕ) (result : Result abi σ) :
    gettransient pmapSet proto vers portnum fuel prognum s = some result ↔
      ∃ k < fuel, FirstSuccess pmapSet proto vers portnum prognum s k ∧
        result = resultAt pmapSet proto vers portnum prognum s k := by
  have hfrom := gettransient_from pmapSet proto vers portnum prognum s fuel 0 (by omega) result
  simp only [BitVec.add_zero, Nat.zero_le, true_and, Nat.zero_add] at hfrom
  exact hfrom

end Search

/-- `gettransient` returns, and the number is a transient one that it has registered or the 0
that stands for a failure. -/
def Terminates (pmapSet : Portmapper abi σ) (proto : BitVec 32) (vers : ULong abi) (portnum : Port)
    (prognum : ULong abi) (s : σ) : Prop :=
  ∃ fuel result, gettransient pmapSet proto vers portnum fuel prognum s = some result ∧
    (result.value = 0 ∨ (0x40000000 ≤ result.registered.prog.toNat ∧
      result.registered.prog.toNat ≤ 0x5fffffff ∧
      result.value.toInt = result.registered.prog.toNat))

/-- This happens exactly if an attempt succeeds, and the first one that does asks for a
transient number or for one whose low 32 bits are zero. -/
theorem terminates_iff (pmapSet : Portmapper abi σ) (proto : BitVec 32) (vers : ULong abi)
    (portnum : Port) (prognum : ULong abi) (s : σ) :
    Terminates pmapSet proto vers portnum prognum s ↔
      ∃ k, FirstSuccess pmapSet proto vers portnum prognum s k ∧
        ((prognum + BitVec.ofNat _ k).toNat % 2 ^ 32 = 0 ∨
          (0x40000000 ≤ (prognum + BitVec.ofNat _ k).toNat ∧
            (prognum + BitVec.ofNat _ k).toNat ≤ 0x5fffffff)) := by
  have hzero : ∀ prog : ULong abi, prog.setWidth 32 = 0 ↔ prog.toNat % 2 ^ 32 = 0 := by
    intro prog
    rw [← BitVec.toNat_inj, BitVec.toNat_setWidth]
    rfl
  have hint : ∀ prog : ULong abi, prog.toNat ≤ 0x5fffffff →
      (prog.setWidth 32).toInt = prog.toNat := by
    intro prog hprog
    have hlow : (prog.setWidth 32).toNat = prog.toNat := by
      rw [BitVec.toNat_setWidth, Nat.mod_eq_of_lt (by omega)]
    rw [BitVec.toInt_eq_toNat_of_lt (by omega), hlow]
  constructor
  · intro h
    obtain ⟨fuel, result, hreturn, hvalue⟩ := h
    obtain ⟨k, -, hfirst, rfl⟩ :=
      (gettransient_eq_some_iff pmapSet proto vers portnum prognum s fuel result).mp hreturn
    refine ⟨k, hfirst, ?_⟩
    rcases hvalue with hfailed | ⟨hlow, hhigh, -⟩
    · exact .inl ((hzero _).mp hfailed)
    · exact .inr ⟨hlow, hhigh⟩
  · intro h
    obtain ⟨k, hfirst, hnumber⟩ := h
    refine ⟨k + 1, _, (gettransient_eq_some_iff pmapSet proto vers portnum prognum s _ _).mpr
      ⟨k, by omega, hfirst, rfl⟩, ?_⟩
    rcases hnumber with hfailed | ⟨hlow, hhigh⟩
    · exact .inl ((hzero _).mpr hfailed)
    · exact .inr ⟨hlow, hhigh, hint _ hhigh⟩

theorem unreachable_not_terminates :
    ¬ ∀ (abi : Abi) (pmapSet : Portmapper abi Unit) (proto : BitVec 32) (vers : ULong abi)
      (portnum : Port) (prognum : ULong abi) (s : Unit),
      Terminates pmapSet proto vers portnum prognum s := by
  intro h
  obtain ⟨fuel, result, hreturn, -⟩ :=
    h (Abi.lp64 .little) (fun _ _ _ => (false, ())) IPPROTO_UDP 1 1000 0x40000000 ()
  obtain ⟨k, -, hfirst, -⟩ := (gettransient_eq_some_iff _ _ _ _ _ _ fuel result).mp hreturn
  cases hfirst.success

/-- The number that `main` prints, registers and sends is the one that `gettransient` has
registered, and it gives up exactly when that function returned 0. -/
structure Agrees (pmapSet : Portmapper abi σ) (xp_port : Option Port) (s : σ) : Prop where
  calls : ∀ fuel printed svcRegister sent,
    main pmapSet xp_port fuel s = some (.calls printed svcRegister sent) →
    ∃ port result, xp_port = some port ∧
      gettransient pmapSet IPPROTO_UDP 1 port fuel 0x40000000 s = some result ∧
      printed.toInt = result.registered.prog.toNat ∧ svcRegister = result.registered.prog ∧
      sent.toInt = result.registered.prog.toNat
  noNumber : ∀ fuel, main pmapSet xp_port fuel s = some .noNumber ↔ ∃ port result,
    xp_port = some port ∧
      gettransient pmapSet IPPROTO_UDP 1 port fuel 0x40000000 s = some result ∧ result.value = 0

section Main

variable (pmapSet : Portmapper abi σ) (fuel : ℕ) (s : σ)

theorem main_none : main pmapSet none fuel s = some .noTransport := rfl

/-- The variable holds the result of the comparison: `main` goes on with 0. -/
theorem main_some {port : Port} {result : Result abi σ}
    (h : gettransient pmapSet IPPROTO_UDP 1 port fuel 0x40000000 s = some result) :
    main pmapSet (some port) fuel s =
      some (if result.value = 0 then .noNumber else .calls 0 0 0) := by
  by_cases hvalue : result.value = 0
  · simp only [main, h, if_pos hvalue]
    rfl
  · have hsign : (0 : BitVec 32).signExtend (8 * abi.longBytes) = 0 := by
      rw [BitVec.signExtend_eq_setWidth_of_msb_false rfl]
      exact BitVec.setWidth_zero _ _
    simp only [main, h, if_neg hvalue, ne_eq, not_true_eq_false, if_false, hsign]

theorem main_of_running {port : Port}
    (h : gettransient pmapSet IPPROTO_UDP 1 port fuel 0x40000000 s = none) :
    main pmapSet (some port) fuel s = none := by simp only [main, h]

theorem main_eq_noNumber_iff (xp_port : Option Port) :
    main pmapSet xp_port fuel s = some .noNumber ↔ ∃ port result, xp_port = some port ∧
      gettransient pmapSet IPPROTO_UDP 1 port fuel 0x40000000 s = some result ∧
      result.value = 0 := by
  constructor
  · intro h
    cases xp_port with
    | none => cases h
    | some port =>
      cases hreturn : gettransient pmapSet IPPROTO_UDP 1 port fuel 0x40000000 s with
      | none =>
        rw [main_of_running pmapSet fuel s hreturn] at h
        cases h
      | some result =>
        rw [main_some pmapSet fuel s hreturn] at h
        by_cases hvalue : result.value = 0
        · exact ⟨port, result, rfl, hreturn, hvalue⟩
        · rw [if_neg hvalue] at h
          cases h
  · intro h
    obtain ⟨port, result, rfl, hreturn, hvalue⟩ := h
    rw [main_some pmapSet fuel s hreturn, if_pos hvalue]

end Main

/-- Everybody agrees on the number exactly when there is none: no transport, no successful
registration, or one whose number is 0 as an `int`. -/
theorem agrees_iff (pmapSet : Portmapper abi σ) (xp_port : Option Port) (s : σ) :
    Agrees pmapSet xp_port s ↔ ∀ port, xp_port = some port → ∀ k,
      FirstSuccess pmapSet IPPROTO_UDP 1 port 0x40000000 s k →
      ((0x40000000 : ULong abi) + BitVec.ofNat _ k).setWidth 32 = 0 := by
  constructor
  · intro h port hport k hfirst
    have hreturn := (gettransient_eq_some_iff pmapSet IPPROTO_UDP 1 port 0x40000000 s (k + 1) _).mpr
      ⟨k, by omega, hfirst, rfl⟩
    by_contra hvalue
    have hcalls : main pmapSet xp_port (k + 1) s = some (.calls 0 0 0) := by
      rw [hport, main_some pmapSet (k + 1) s hreturn]
      exact congrArg some (if_neg hvalue)
    obtain ⟨port', result, hport', hreturn', -, hregistered, -⟩ := h.calls _ _ _ _ hcalls
    rw [hport] at hport'
    cases hport'
    rw [hreturn] at hreturn'
    cases hreturn'
    -- what `main` registers its callback for is 0, the registered number is not
    apply hvalue
    change (0 : ULong abi) = (0x40000000 : ULong abi) + BitVec.ofNat _ k at hregistered
    rw [← hregistered]
    exact BitVec.setWidth_zero _ _
  · intro h
    refine ⟨?_, fun fuel => main_eq_noNumber_iff pmapSet fuel s xp_port⟩
    intro fuel printed svcRegister sent hmain
    cases hport : xp_port with
    | none =>
      rw [hport, main_none] at hmain
      cases hmain
    | some port =>
      rw [hport] at hmain
      cases hreturn : gettransient pmapSet IPPROTO_UDP 1 port fuel 0x40000000 s with
      | none =>
        rw [main_of_running pmapSet fuel s hreturn] at hmain
        cases hmain
      | some result =>
        obtain ⟨k, -, hfirst, rfl⟩ :=
          (gettransient_eq_some_iff pmapSet IPPROTO_UDP 1 port _ s fuel result).mp hreturn
        have hvalue : (resultAt pmapSet IPPROTO_UDP 1 port 0x40000000 s k).value = 0 :=
          h port hport k hfirst
        rw [main_some pmapSet fuel s hreturn, if_pos hvalue] at hmain
        cases hmain

/-- The registrations of `TransientNumbers`, when no other program registers meanwhile. -/
def tablePortmapper : Portmapper abi (Table abi) := fun table key port =>
  match pmapSet table key port with
  | some table => (true, table)
  | none => (false, table)

/-- A call of `gettransient` is a run of attempts of its process. -/
theorem run_of_gettransient {pid : ℕ} {call : Call abi} (fuel : ℕ) {prognum : ULong abi}
    {s : State abi} (hproc : s.procs pid = ⟨prognum, some call⟩)
    {result : Result abi (Table abi)}
    (h : gettransient tablePortmapper call.proto call.vers call.portnum fuel prognum s.table =
      some result) :
    ∃ attempts s', run step s (List.replicate attempts (.pmapSet pid)) = some s' ∧
      s'.table = result.portmapper ∧ s'.procs pid = ⟨result.prognum, none⟩ ∧
      s'.returns = s.returns ++
        [⟨{ call with registered := call.registered ++ [result.registered] }, result.value⟩] := by
  induction fuel generalizing prognum s with
  | zero => cases h
  | succ fuel ih =>
    cases hset : pmapSet s.table (call.key prognum) call.portnum with
    | none =>
      have hanswer : tablePortmapper s.table (call.key prognum) call.portnum = (false, s.table) := by
        simp only [tablePortmapper, hset]
      have hstep : step s (.pmapSet pid) = some (s.setProc pid ⟨prognum + 1, some call⟩) := by
        simp only [step, hproc, hset]
      have hproc' : (s.setProc pid ⟨prognum + 1, some call⟩).procs pid = ⟨prognum + 1, some call⟩ :=
        Function.update_self ..
      rw [Call.key] at hanswer
      simp only [gettransient, hanswer, Bool.false_eq_true, if_false] at h
      obtain ⟨attempts, s', hrun, hrest⟩ := ih hproc' h
      refine ⟨attempts + 1, s', ?_, hrest⟩
      rw [List.replicate_succ, run, hstep]
      exact hrun
    | some table =>
      have hanswer : tablePortmapper s.table (call.key prognum) call.portnum = (true, table) := by
        simp only [tablePortmapper, hset]
      rw [Call.key] at hanswer
      simp only [gettransient, hanswer, if_true] at h
      cases h
      have hrun : run step s (List.replicate 1 (.pmapSet pid)) = some
          { s.setProc pid ⟨prognum + 1, none⟩ with
            table := table
            returns := s.returns ++
              [⟨{ call with registered := call.registered ++ [call.key prognum] },
                (prognum + 1 - 1).setWidth 32⟩] } := by
        rw [List.replicate_one, run, step, hproc]
        simp only [hset]
        rfl
      exact ⟨1, _, hrun, rfl, Function.update_self .., rfl⟩

/-- On an empty portmapper the client gets the first number and calls itself 0. -/
theorem main_calls_zero :
    ¬ ∀ (abi : Abi) (xp_port : Option Port) (table : Table abi),
      Agrees tablePortmapper xp_port table := by
  intro h
  obtain ⟨port, result, hport, hreturn, -, hregistered, -⟩ :=
    (h (Abi.lp64 .little) (some 1000) (fun _ => none)).calls 1 0 0 0 rfl
  cases hport
  cases hreturn
  revert hregistered
  decide

end WorkCode.CallbackClient
