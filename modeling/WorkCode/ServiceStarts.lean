import WorkCode.EventRuns
import WorkCode.TransientNumbers

/-!
# Starting the services

The generated `main` of a service removes the registrations of its program, makes a UDP and a
TCP transporter and registers each with the portmapper, which is a parameter. Any number of
services start and end at the same time; some of them may be for the same program.
-/

namespace WorkCode.ServiceStarts

open EventRuns TransientNumbers

variable {abi : Abi}

structure Program (abi : Abi) where
  prog : ULong abi
  vers : ULong abi
  deriving DecidableEq

def ssson : Program abi := ⟨33330000, 1⟩

def test : Program abi := ⟨0x20008000, 1⟩

def Program.udpKey (p : Program abi) : Key abi := ⟨p.prog, p.vers, 17⟩

def Program.tcpKey (p : Program abi) : Key abi := ⟨p.prog, p.vers, 6⟩

/-- The portmapper of the host: the port that it has for a key, and what the two calls of it return,
with whatever else decides about a call. `removes` says whether a `pmap_unset` takes effect; its
result is not looked at. -/
structure Portmapper (abi : Abi) (σ ω : Type) where
  port : σ → Table abi
  pmapSet : ω → Key abi → Port → σ → Bool × σ
  pmapUnset : ω → Program abi → σ → σ
  removes : ω → Program abi → σ → Bool

/-- A key that has no port, or this one already, can be given a port, and a call that succeeds has done
so; one that fails may have done so if the answer was lost. The registrations of a program are
removed together, or not at all. -/
structure Portmapper.Documented {σ ω : Type} (pm : Portmapper abi σ ω) : Prop where
  set : ∀ w key port t,
    (pm.pmapSet w key port t).1 = false ∧ pm.port (pm.pmapSet w key port t).2 = pm.port t ∨
      (pm.port t key = none ∨ pm.port t key = some port) ∧
        pm.port (pm.pmapSet w key port t).2 = Function.update (pm.port t) key (some port)
  unset : ∀ w p t key, pm.port (pm.pmapUnset w p t) key =
    if pm.removes w p t ∧ key.prog = p.prog ∧ key.vers = p.vers then none else pm.port t key

inductive Pc
  | begun
  | unset
  | udpCreated (udp : Port)
  | udpRegistered (udp : Port)
  | tcpCreated (udp tcp : Port)
  | running (udp tcp : Port)
  | exited
  deriving DecidableEq

def Pc.udp : Pc → Option Port
  | .udpCreated udp => some udp
  | .udpRegistered udp => some udp
  | .tcpCreated udp _ => some udp
  | .running udp _ => some udp
  | _ => none

/-- The UDP port that a process has registered. -/
def Pc.registered : Pc → Option Port
  | .udpRegistered udp => some udp
  | .tcpCreated udp _ => some udp
  | .running udp _ => some udp
  | _ => none

structure State (σ : Type) where
  portmapper : σ
  procs : ℕ → Pc
  /-- the process that has a UDP port -/
  owner : Port → Option ℕ
  /-- somebody has removed the registrations of the program since the process made its first -/
  removed : ℕ → Bool

inductive Event (ω : Type)
  | pmapUnset (pid : ℕ) (w : ω)
  | svcudpCreate (pid : ℕ) (port : Option Port)
  | registerUdp (pid : ℕ) (w : ω)
  | svctcpCreate (pid : ℕ) (port : Option Port)
  | registerTcp (pid : ℕ) (w : ω)
  | killed (pid : ℕ)

section Steps

variable {σ ω : Type} (pm : Portmapper abi σ ω) (program : ℕ → Program abi)

def init (t : σ) : State σ := ⟨t, fun _ => .begun, fun _ => none, fun _ => false⟩

def State.setProc (s : State σ) (pid : ℕ) (pc : Pc) : State σ := { s with procs := Function.update s.procs pid pc }

/-- A process ends, and its ports with it; what it has registered stays. -/
def State.exit (s : State σ) (pid : ℕ) : State σ :=
  { s.setProc pid .exited with owner := fun port => if s.owner port = some pid then none else s.owner port }

def State.unset (s : State σ) (w : ω) (p : Program abi) : State σ :=
  { s with
    portmapper := pm.pmapUnset w p s.portmapper
    removed := fun pid => if pm.removes w p s.portmapper ∧ p = program pid then true else s.removed pid }

/-- One step of a process. A UDP port that is bound is one that nobody has. -/
def step (s : State σ) : Event ω → Option (State σ)
  | .pmapUnset pid w => match s.procs pid with
    | .begun => some ((s.unset pm program w (program pid)).setProc pid .unset)
    | _ => none
  | .svcudpCreate pid port => match s.procs pid, port with
    | .unset, none => some (s.exit pid)
    | .unset, some udp =>
      if s.owner udp = none then
        some { s.setProc pid (.udpCreated udp) with owner := Function.update s.owner udp (some pid) }
      else none
    | _, _ => none
  | .registerUdp pid w => match s.procs pid with
    | .udpCreated udp =>
      let answer := pm.pmapSet w (program pid).udpKey udp s.portmapper
      let after := { s with portmapper := answer.2 }
      if answer.1 then
        some { after.setProc pid (.udpRegistered udp) with removed := Function.update s.removed pid false }
      else some (after.exit pid)
    | _ => none
  | .svctcpCreate pid port => match s.procs pid, port with
    | .udpRegistered _, none => some (s.exit pid)
    | .udpRegistered udp, some tcp => some (s.setProc pid (.tcpCreated udp tcp))
    | _, _ => none
  | .registerTcp pid w => match s.procs pid with
    | .tcpCreated udp tcp =>
      let answer := pm.pmapSet w (program pid).tcpKey tcp s.portmapper
      let after := { s with portmapper := answer.2 }
      if answer.1 then some (after.setProc pid (.running udp tcp)) else some (after.exit pid)
    | _ => none
  | .killed pid => some (s.exit pid)

/-- What the steps keep, seen by one process. -/
structure Inv (pid : ℕ) (s : State σ) : Prop where
  owner : ∀ p udp, (s.procs p).udp = some udp → s.owner udp = some p
  udp : ∀ udp, (s.procs pid).registered = some udp →
    (pm.port s.portmapper (program pid).udpKey = some udp ↔ s.removed pid = false)
  tcp : ∀ udp tcp, s.procs pid = .running udp tcp → s.removed pid = false →
    pm.port s.portmapper (program pid).tcpKey = some tcp

end Steps

variable {σ ω : Type} {pm : Portmapper abi σ ω} {program : ℕ → Program abi} {pid p : ℕ} {s s' : State σ}

theorem Program.udpKey_ne_tcpKey (p q : Program abi) : p.udpKey ≠ q.tcpKey := by
  intro h
  have hproto : (17 : BitVec 32) = 6 := congrArg Key.proto h
  revert hproto
  decide

theorem udp_of_registered {pc : Pc} {udp : Port} (h : pc.registered = some udp) : pc.udp = some udp := by
  cases pc <;> first | exact h | cases h

theorem inv_init (t : σ) : Inv pm program pid (init t) where
  owner := fun _ _ h => nomatch h
  udp := fun _ h => nomatch h
  tcp := fun _ _ h => nomatch h

theorem Inv.move (h : Inv pm program pid s) {pc : Pc} {owner : Port → Option ℕ} {removed : ℕ → Bool}
    (hothers : ∀ udp q, q ≠ p → s.owner udp = some q → owner udp = some q)
    (hmine : ∀ udp, pc.udp = some udp → owner udp = some p)
    (hremoved : pid ≠ p → removed pid = s.removed pid)
    (hudp : ∀ udp, pid = p → pc.registered = some udp →
      (pm.port s.portmapper (program pid).udpKey = some udp ↔ removed pid = false))
    (htcp : ∀ udp tcp, pid = p → pc = .running udp tcp → removed pid = false →
      pm.port s.portmapper (program pid).tcpKey = some tcp) :
    Inv pm program pid ⟨s.portmapper, Function.update s.procs p pc, owner, removed⟩ where
  owner := by
    intro q udp hq
    by_cases hqp : q = p
    · subst hqp
      apply hmine udp
      simpa using hq
    · apply hothers udp q hqp
      apply h.owner q udp
      simpa [Function.update_of_ne hqp] using hq
  udp := by
    intro udp hregistered
    by_cases hp : pid = p
    · apply hudp udp hp
      simpa [hp] using hregistered
    · dsimp only
      rw [hremoved hp]
      apply h.udp udp
      simpa [Function.update_of_ne hp] using hregistered
  tcp := by
    intro udp tcp hrunning hnot
    by_cases hp : pid = p
    · apply htcp udp tcp hp _ hnot
      simpa [hp] using hrunning
    · dsimp only at hnot
      rw [hremoved hp] at hnot
      apply h.tcp udp tcp _ hnot
      simpa [Function.update_of_ne hp] using hrunning

theorem Inv.exit (h : Inv pm program pid s) (p : ℕ) : Inv pm program pid (s.exit p) := by
  refine h.move ?_ (fun _ hnone => nomatch hnone) (fun _ => rfl) (fun _ _ hnone => nomatch hnone)
    (fun _ _ _ hnone => nomatch hnone)
  intro udp q hqp howner
  have hne : ¬s.owner udp = some p := by
    intro heq
    exact hqp (Option.some.inj (howner.symm.trans heq))
  exact (if_neg hne).trans howner

theorem Inv.advance (h : Inv pm program pid s) {pc : Pc} {owner : Port → Option ℕ}
    (hothers : ∀ udp q, q ≠ p → s.owner udp = some q → owner udp = some q)
    (hmine : ∀ udp, pc.udp = some udp → owner udp = some p)
    (hregistered : ∀ udp, pc.registered = some udp → (s.procs p).registered = some udp)
    (hnot : ∀ udp tcp, pc ≠ .running udp tcp) :
    Inv pm program pid ⟨s.portmapper, Function.update s.procs p pc, owner, s.removed⟩ := by
  refine h.move hothers hmine (fun _ => rfl) ?_ fun udp tcp _ hrunning => absurd hrunning (hnot udp tcp)
  rintro udp rfl hudp
  exact h.udp udp (hregistered udp hudp)

theorem Inv.svcudpCreate (h : Inv pm program pid s) {udp : Port} (hfree : s.owner udp = none) :
    Inv pm program pid
      { s.setProc p (.udpCreated udp) with owner := Function.update s.owner udp (some p) } := by
  apply h.advance
  · intro u q _ hq
    have hne : u ≠ udp := by
      intro heq
      rw [heq, hfree] at hq
      cases hq
    rw [Function.update_of_ne hne]
    exact hq
  · intro u hu
    cases hu
    exact Function.update_self ..
  · intro u hu
    cases hu
  · intro u tcp hrunning
    cases hrunning

theorem Inv.svctcpCreate (h : Inv pm program pid s) {udp tcp : Port} (hpc : s.procs p = .udpRegistered udp) :
    Inv pm program pid (s.setProc p (.tcpCreated udp tcp)) := by
  apply h.advance (fun _ _ _ howner => howner)
  · intro u hu
    apply h.owner p u
    rw [hpc]
    exact hu
  · intro u hu
    rw [hpc]
    exact hu
  · intro u t hrunning
    cases hrunning

section Calls

variable (hpm : pm.Documented)
include hpm

/-- Whoever removes the registrations of the program, what is said about each process stays true. -/
theorem Inv.unset (h : Inv pm program pid s) (w : ω) (p : Program abi) :
    Inv pm program pid (s.unset pm program w p) := by
  by_cases hremoves : pm.removes w p s.portmapper = true ∧ p = program pid
  · have hnow : (s.unset pm program w p).removed pid = true := if_pos hremoves
    refine ⟨h.owner, ?_, ?_⟩
    · intro udp _
      have hgone : pm.port (s.unset pm program w p).portmapper (program pid).udpKey = none := by
        refine (hpm.unset w p s.portmapper _).trans (if_pos ⟨hremoves.1, ?_⟩)
        rw [hremoves.2]
        exact ⟨rfl, rfl⟩
      rw [hgone, hnow]
      simp
    · intro udp tcp _ hnot
      rw [hnow] at hnot
      cases hnot
  · have hstays : (s.unset pm program w p).removed pid = s.removed pid := if_neg hremoves
    have hkeeps : ∀ key : Key abi, key.prog = (program pid).prog ∧ key.vers = (program pid).vers →
        pm.port (s.unset pm program w p).portmapper key = pm.port s.portmapper key := by
      intro key hkey
      refine (hpm.unset w p s.portmapper key).trans (if_neg ?_)
      rintro ⟨htakes, hprog, hvers⟩
      rw [hkey.1] at hprog
      rw [hkey.2] at hvers
      obtain ⟨prog, vers⟩ := p
      obtain rfl : (program pid).prog = prog := hprog
      obtain rfl : (program pid).vers = vers := hvers
      exact hremoves ⟨htakes, rfl⟩
    refine ⟨h.owner, ?_, ?_⟩
    · intro udp hregistered
      rw [hkeeps _ ⟨rfl, rfl⟩, hstays]
      exact h.udp udp hregistered
    · intro udp tcp hrunning hnot
      rw [hkeeps _ ⟨rfl, rfl⟩]
      rw [hstays] at hnot
      exact h.tcp udp tcp hrunning hnot

/-- A `pmap_set` of a UDP port, by a process that has the port and has not registered it before. -/
theorem Inv.set_udp (h : Inv pm program pid s) {udp : Port} (hpc : s.procs p = .udpCreated udp) (w : ω) :
    Inv pm program pid
      { s with portmapper := (pm.pmapSet w (program p).udpKey udp s.portmapper).2 } := by
  rcases hpm.set w (program p).udpKey udp s.portmapper with ⟨-, hsame⟩ | ⟨hbefore, hset⟩
  · refine ⟨h.owner, ?_, ?_⟩
    · intro u hregistered
      rw [hsame]
      exact h.udp u hregistered
    · intro u tcp hrunning hnot
      rw [hsame]
      exact h.tcp u tcp hrunning hnot
  · refine ⟨h.owner, ?_, ?_⟩
    · intro u hregistered
      have hne : udp ≠ u := by
        rintro rfl
        have hother := h.owner pid udp (udp_of_registered hregistered)
        have hmine := h.owner p udp (by rw [hpc]; rfl)
        obtain rfl : pid = p := Option.some.inj (hother.symm.trans hmine)
        rw [hpc] at hregistered
        cases hregistered
      have hudp := h.udp u hregistered
      rw [hset]
      by_cases hkey : (program pid).udpKey = (program p).udpKey
      · -- the registration of `pid` is gone already, and the port that comes in is not its own
        rw [hkey] at hudp ⊢
        have hbefore' : pm.port s.portmapper (program p).udpKey ≠ some u := by
          rcases hbefore with hbefore | hbefore
          · rw [hbefore]
            exact fun hnone => nomatch hnone
          · rw [hbefore]
            exact fun heq => hne (Option.some.inj heq)
        rw [Function.update_self, ← hudp]
        simp [hne, hbefore']
      · rw [Function.update_of_ne hkey]
        exact hudp
    · intro u tcp hrunning hnot
      rw [hset, Function.update_of_ne (Ne.symm (Program.udpKey_ne_tcpKey _ _))]
      exact h.tcp u tcp hrunning hnot

/-- A `pmap_set` of a TCP port, which others have registered under the key only if it is the same. -/
theorem Inv.set_tcp (h : Inv pm program pid s) (p : ℕ) (tcp : Port) (w : ω) :
    Inv pm program pid
      { s with portmapper := (pm.pmapSet w (program p).tcpKey tcp s.portmapper).2 } := by
  rcases hpm.set w (program p).tcpKey tcp s.portmapper with ⟨-, hsame⟩ | ⟨hbefore, hset⟩
  · refine ⟨h.owner, ?_, ?_⟩
    · intro u hregistered
      rw [hsame]
      exact h.udp u hregistered
    · intro u t hrunning hnot
      rw [hsame]
      exact h.tcp u t hrunning hnot
  · refine ⟨h.owner, ?_, ?_⟩
    · intro u hregistered
      rw [hset, Function.update_of_ne (Program.udpKey_ne_tcpKey _ _)]
      exact h.udp u hregistered
    · intro u t hrunning hnot
      have hregistered := h.tcp u t hrunning hnot
      rw [hset]
      by_cases hkey : (program pid).tcpKey = (program p).tcpKey
      · rw [hkey] at hregistered ⊢
        rw [Function.update_self]
        rcases hbefore with hbefore | hbefore
        · rw [hbefore] at hregistered
          cases hregistered
        · rw [← hbefore, hregistered]
      · rw [Function.update_of_ne hkey]
        exact hregistered

theorem port_of_set {w : ω} {key : Key abi} {port : Port} {t : σ} (h : (pm.pmapSet w key port t).1 = true) :
    pm.port (pm.pmapSet w key port t).2 key = some port := by
  rcases hpm.set w key port t with ⟨hfailed, -⟩ | ⟨-, hset⟩
  · rw [h] at hfailed
    cases hfailed
  · rw [hset, Function.update_self]

theorem inv_step {e : Event ω} (h : Inv pm program pid s) (hstep : step pm program s e = some s') :
    Inv pm program pid s' := by
  cases e with
  | pmapUnset p w =>
    simp only [step] at hstep
    split at hstep
    · cases hstep
      exact (h.unset hpm w (program p)).advance (fun _ _ _ howner => howner) (fun _ hnone => nomatch hnone)
        (fun _ hnone => nomatch hnone) (fun _ _ hnone => nomatch hnone)
    · cases hstep
  | svcudpCreate p port =>
    simp only [step] at hstep
    split at hstep
    · cases hstep
      exact h.exit p
    · next udp hpc =>
      split at hstep
      · next hfree =>
        cases hstep
        exact h.svcudpCreate hfree
      · cases hstep
    · cases hstep
  | registerUdp p w =>
    simp only [step] at hstep
    split at hstep
    · next udp hpc =>
      have hafter := h.set_udp hpm hpc w
      split at hstep
      · next hanswer =>
        cases hstep
        refine hafter.move (fun _ _ _ howner => howner) ?_ ?_ ?_ fun _ _ _ hnone => nomatch hnone
        · intro u hu
          apply h.owner p u
          rw [hpc]
          exact hu
        · intro hp
          exact Function.update_of_ne hp ..
        · rintro u rfl hu
          cases hu
          rw [Function.update_self]
          exact ⟨fun _ => rfl, fun _ => port_of_set hpm hanswer⟩
      · cases hstep
        exact hafter.exit p
    · cases hstep
  | svctcpCreate p port =>
    simp only [step] at hstep
    split at hstep
    · cases hstep
      exact h.exit p
    · next udp tcp hpc =>
      cases hstep
      exact h.svctcpCreate hpc
    · cases hstep
  | registerTcp p w =>
    simp only [step] at hstep
    split at hstep
    · next udp tcp hpc =>
      have hafter := h.set_tcp hpm p tcp w
      split at hstep
      · next hanswer =>
        cases hstep
        refine hafter.move (fun _ _ _ howner => howner) ?_ (fun _ => rfl) ?_ ?_
        · intro u hu
          apply h.owner p u
          rw [hpc]
          exact hu
        · rintro u rfl hu
          apply hafter.udp u
          exact (congrArg Pc.registered hpc).trans hu
        · rintro u t rfl hrunning _
          cases hrunning
          exact port_of_set hpm hanswer
      · cases hstep
        exact hafter.exit p
    · cases hstep
  | killed p =>
    cases hstep
    exact h.exit p

/-- Services start, are killed and start again in any order, from any registrations that earlier ones
have left. A service that has come to `svc_run` is found under both protocols exactly if nobody
who started a service for the same program has removed its registrations since it made the first. -/
theorem running_found_iff {t : σ} {es : List (Event ω)} {udp tcp : Port}
    (hrun : run (step pm program) (init t) es = some s) (hrunning : s.procs pid = .running udp tcp) :
    (pm.port s.portmapper (program pid).udpKey = some udp ∧ pm.port s.portmapper (program pid).tcpKey = some tcp) ↔
      s.removed pid = false := by
  have hinv : Inv pm program pid s := invariant_run (fun _ _ _ h _ hstep => inv_step hpm h hstep) (inv_init t)
    (@along_of_forall _ _ (step pm program) (fun _ _ => True) (fun _ _ => trivial) (init t) es) hrun
  have hudp := hinv.udp udp (by rw [hrunning]; rfl)
  constructor
  · intro h
    exact hudp.mp h.1
  · intro h
    exact ⟨hudp.mpr h, hinv.tcp udp tcp hrunning h⟩

end Calls

def plainPortmapper (abi : Abi) : Portmapper abi (Table abi) Unit where
  port table := table
  pmapSet _ key port table :=
    if table key = none ∨ table key = some port then (true, Function.update table key (some port)) else (false, table)
  pmapUnset _ p table key := if key.prog = p.prog ∧ key.vers = p.vers then none else table key
  removes _ _ _ := true

theorem documented_plainPortmapper (abi : Abi) : (plainPortmapper abi).Documented where
  set := by
    intro w key port table
    by_cases hkey : table key = none ∨ table key = some port
    · exact .inr ⟨hkey, by simp [plainPortmapper, hkey]⟩
    · exact .inl (by simp [plainPortmapper, hkey])
  unset := by
    intro w p table key
    simp [plainPortmapper]

def threeServices (pid : ℕ) : Program abi := if pid = 2 then test else ssson

/-- The second service starts while the first has registered only its UDP port, and ends when it cannot
register its TCP port. The third one is of another program. -/
def crossedStarts : List (Event Unit) :=
  [.pmapUnset 0 (), .svcudpCreate 0 (some 700), .registerUdp 0 (), .pmapUnset 1 (), .svctcpCreate 0 (some 701),
    .registerTcp 0 (), .svcudpCreate 1 (some 702), .pmapUnset 2 (), .registerUdp 1 (), .svctcpCreate 1 (some 703),
    .registerTcp 1 ()]

theorem running_found_iff_crossedStarts : ∃ s : State (Table (Abi.lp64 .little)),
    run (step (plainPortmapper _) threeServices) (init fun _ => none) crossedStarts = some s ∧
      ((s.portmapper (threeServices 0).udpKey = some 700 ∧ s.portmapper (threeServices 0).tcpKey = some 701) ↔
        s.removed 0 = false) := by
  obtain ⟨s, hrun, hpc⟩ : ∃ s : State (Table (Abi.lp64 .little)),
    run (step (plainPortmapper _) threeServices) (init fun _ => none) crossedStarts = some s ∧
      s.procs 0 = .running 700 701 := ⟨_, rfl, rfl⟩
  exact ⟨s, hrun, running_found_iff (documented_plainPortmapper _) hrun hpc⟩

end WorkCode.ServiceStarts
