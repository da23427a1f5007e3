import WorkCode.CallCounting
import WorkCode.EventRuns

/-!
# Calls over connections

The secured service takes the records of a connection as they come: one decoded call after
another while its stream has more, each answered with the transaction of the call that was
read last, and a record that is no call ends the connection. The messages of `CallCounting`
are what is left of that: here any number of connections brings records in portions of any
size, and the service comes to what it would come to if their calls were handed to it one by
one.

The records are those of the library's record stream, and how a record holds a call is the
library's too, a parameter here.
-/

namespace WorkCode.RecordConnections

open RemoteCalls CallCounting Tallies

inductive XprtStat | died | moreReqs | idle
  deriving DecidableEq, Repr

/-- What is read of a call in `struct rpc_msg`. -/
structure RpcMsg where
  rmXid : BitVec 32
  cbProg : BitVec 32
  cbVers : BitVec 32
  cbProc : BitVec 32
  deriving DecidableEq, Repr

/-- A record that is written: a reply, or the beginning of one whose result is not encoded. -/
inductive Record
  | reply (xid : BitVec 32) (reply : Reply)
  | unfinished (xid : BitVec 32)
  deriving DecidableEq, Repr

/-- `struct tcp_conn`, with what its stream has not yet read of its record and what was written to it. -/
structure TcpConn where
  strmStat : XprtStat
  xId : BitVec 32
  unread : List Byte
  sent : List Record

/-- The connection that `makefd_xprt` makes: `x_id` is what the memory held. -/
def makefdXprt (xId : BitVec 32) : TcpConn := ⟨.idle, xId, [], []⟩

/-- `svctcp_stat`, with what `xdrrec_eof` says of the stream. -/
def svctcpStat (cd : TcpConn) (eof : Bool) : XprtStat :=
  if cd.strmStat = .died then .died else if !eof then .moreReqs else .idle

def svctcpReply (cd : TcpConn) (reply : Reply) : TcpConn := { cd with sent := cd.sent ++ [.reply cd.xId reply] }

/-- `svc_sendreply` over such a connection. A result that is not encoded still ends its record,
and `svcerr_systemerr` sends another one. -/
def sendReply (cd : TcpConn) : Reply → TcpConn
  | .systemErr => svctcpReply { cd with sent := cd.sent ++ [.unfinished cd.xId] } .systemErr
  | reply => svctcpReply cd reply

section Connections

variable {κ ι : Type} (xdrCallmsg : List Byte → Option (RpcMsg × List Byte))

/-- `svctcp_recv`: the stream goes on to its next record, whatever is left of the one before. Of a record
in which the connection ends there is what has come of it, and none behind it. -/
def svctcpRecv (cd : TcpConn) (record : Option (List Byte)) : Option RpcMsg × TcpConn :=
  match record.bind xdrCallmsg with
  | some (msg, args) => (some msg, { cd with xId := msg.rmXid, unread := args })
  | none => (none, { cd with strmStat := .died, unread := [] })

abbrev Message (κ : Type) := RpcMsg × List Byte × κ

variable (prog : ℕ → Message κ → Option (Option Reply × ℕ))

/-- A turn of the loop of `svc_run`: a record is read, and if it is a call, the program is called with it. -/
def request (count : ℕ) (cd : TcpConn) (p : Option (List Byte) × κ) : Option (TcpConn × ℕ) :=
  match svctcpRecv xdrCallmsg cd p.1 with
  | (some msg, cd) => (prog count (msg, cd.unread, p.2)).map fun r => (r.1.elim cd (sendReply cd), r.2)
  | (none, cd) => some (cd, count)

/-- The loop over a connection from which the given records can be read; it ends when the stream has
no more. -/
def getreq : ℕ → TcpConn → List (Option (List Byte) × κ) → Option (TcpConn × ℕ)
  | count, cd, [] => some (cd, count)
  | count, cd, p :: ps => (request xdrCallmsg prog count cd p).bind fun r =>
    match svctcpStat r.1 ps.isEmpty with
    | .moreReqs => getreq r.2 r.1 ps
    | _ => some r

/-- The service: its connections and its counter. -/
structure State (ι : Type) where
  conns : ι → TcpConn
  count : ℕ

variable [DecidableEq ι]

/-- The service finds that a connection can be read. A connection that died is gone. -/
def step (s : State ι) (e : ι × List (Option (List Byte) × κ)) : Option (State ι) :=
  if (s.conns e.1).strmStat = .died ∨ e.2 = [] then none
  else (getreq xdrCallmsg prog s.count (s.conns e.1) e.2).map fun r => ⟨Function.update s.conns e.1 r.1, r.2⟩

def init (xId : ι → BitVec 32) (count : ℕ) : State ι := ⟨fun c => makefdXprt (xId c), count⟩

def call (p : Option (List Byte) × κ) : Option (Message κ) :=
  (p.1.bind xdrCallmsg).map fun m => (m.1, m.2, p.2)

def calls : List (Option (List Byte) × κ) → List (Message κ)
  | [] => []
  | p :: ps => (call xdrCallmsg p).elim [] fun m => m :: calls ps

def accepted (es : List (ι × List (Option (List Byte) × κ))) : List (ι × Message κ) :=
  es.flatMap fun e => (calls xdrCallmsg e.2).map (e.1, ·)

def written (m : Message κ) : Option Reply → List Record
  | none => []
  | some .systemErr => [.unfinished m.1.rmXid, .reply m.1.rmXid .systemErr]
  | some reply => [.reply m.1.rmXid reply]

def writtenAll (ms : List (Message κ)) (rs : List (Option Reply)) : List Record :=
  (ms.zip rs).flatMap fun p => written p.1 p.2

def writtenTo (c : ι) (ms : List (ι × Message κ)) (rs : List (Option Reply)) : List Record :=
  (ms.zip rs).flatMap fun p => if p.1.1 = c then written p.1.2 p.2 else []

/-- Portions that can come: none is empty, and none comes behind a record that was no call. -/
def Possible (es : List (ι × List (Option (List Byte) × κ))) : Prop :=
  (∀ e ∈ es, e.2 ≠ []) ∧ es.Pairwise fun d e => d.1 = e.1 → ∀ p ∈ d.2, call xdrCallmsg p ≠ none

variable {xdrCallmsg} {prog} {cd : TcpConn} {count : ℕ} {p : Option (List Byte) × κ}
  {ps : List (Option (List Byte) × κ)} {m : Message κ}

theorem sendReply_eq (reply : Reply) (h : cd.xId = m.1.rmXid) :
    sendReply cd reply = { cd with sent := cd.sent ++ written m (some reply) } := by
  cases reply with
  | systemErr => simp [sendReply, svctcpReply, written, h]
  | _ => simp [sendReply, svctcpReply, written, h]

theorem request_of_call (h : call xdrCallmsg p = some m) :
    request xdrCallmsg prog count cd p = (prog count m).map fun r =>
      (⟨cd.strmStat, m.1.rmXid, m.2.1, cd.sent ++ written m r.1⟩, r.2) := by
  obtain ⟨x, hx, rfl⟩ := Option.map_eq_some_iff.mp h
  simp only [request, svctcpRecv, hx]
  congr 1
  funext r
  cases hr : r.1 with
  | none => simp [written]
  | some reply =>
    rw [Option.elim, sendReply_eq (m := (x.1, x.2, p.2)) reply rfl]

theorem request_of_no_call (h : call xdrCallmsg p = none) :
    request xdrCallmsg prog count cd p = some ({ cd with strmStat := .died, unread := [] }, count) := by
  have hbind : p.1.bind xdrCallmsg = none := Option.map_eq_none_iff.mp h
  simp only [request, svctcpRecv, hbind]

theorem getreq_cons_of_live (h : cd.strmStat ≠ .died) :
    (match svctcpStat cd ps.isEmpty with
      | .moreReqs => getreq xdrCallmsg prog count cd ps
      | _ => some (cd, count)) = getreq xdrCallmsg prog count cd ps := by
  rw [svctcpStat, if_neg h]
  cases ps with
  | nil => rfl
  | cons p ps => rfl

theorem getreq_of_call (hlive : cd.strmStat ≠ .died) (h : call xdrCallmsg p = some m) :
    getreq xdrCallmsg prog count cd (p :: ps) = (prog count m).bind fun r =>
      getreq xdrCallmsg prog r.2 ⟨cd.strmStat, m.1.rmXid, m.2.1, cd.sent ++ written m r.1⟩ ps := by
  rw [getreq, request_of_call h]
  cases prog count m with
  | none => rfl
  | some r => exact getreq_cons_of_live hlive

theorem getreq_of_no_call (h : call xdrCallmsg p = none) :
    getreq xdrCallmsg prog count cd (p :: ps) =
      some ({ cd with strmStat := .died, unread := [] }, count) := by
  rw [getreq, request_of_no_call h]
  rfl

theorem calls_of_call (h : call xdrCallmsg p = some m) :
    calls xdrCallmsg (p :: ps) = m :: calls xdrCallmsg ps := by
  rw [calls, h, Option.elim]

theorem calls_of_no_call (h : call xdrCallmsg p = none) : calls xdrCallmsg (p :: ps) = [] := by
  rw [calls, h, Option.elim]

/-- What the loop does to a connection is what its calls do, one after another. -/
theorem isSome_getreq (hlive : cd.strmStat ≠ .died) :
    (getreq xdrCallmsg prog count cd ps).isSome ↔ (serveAll prog count (calls xdrCallmsg ps)).isSome := by
  induction ps generalizing count cd with
  | nil => simp [getreq, calls, serveAll]
  | cons p ps ih =>
    cases hcall : call xdrCallmsg p with
    | none => simp [getreq_of_no_call hcall, calls_of_no_call hcall, serveAll]
    | some m =>
      rw [getreq_of_call hlive hcall, calls_of_call hcall, serveAll]
      cases prog count m with
      | none => rfl
      | some r =>
        rw [Option.bind_some, Option.bind_some, Option.isSome_map]
        exact ih hlive

theorem getreq_eq_some {r : TcpConn × ℕ} (hlive : cd.strmStat ≠ .died)
    (h : getreq xdrCallmsg prog count cd ps = some r) :
    ∃ rs, serveAll prog count (calls xdrCallmsg ps) = some (rs, r.2) ∧
      r.1.sent = cd.sent ++ writtenAll (calls xdrCallmsg ps) rs ∧
      (r.1.strmStat = .died ↔ ∃ p ∈ ps, call xdrCallmsg p = none) := by
  induction ps generalizing count cd with
  | nil =>
    cases h
    exact ⟨[], rfl, by simp [calls, writtenAll], by simpa using hlive⟩
  | cons p ps ih =>
    cases hcall : call xdrCallmsg p with
    | none =>
      rw [getreq_of_no_call hcall] at h
      cases h
      rw [calls_of_no_call hcall]
      exact ⟨[], rfl, by simp [writtenAll], by simp [hcall]⟩
    | some m =>
      rw [getreq_of_call hlive hcall] at h
      obtain ⟨q, hq, hrest⟩ := Option.bind_eq_some_iff.mp h
      obtain ⟨rs, hserve, hsent, hdied⟩ := ih (by exact hlive) hrest
      refine ⟨q.1 :: rs, ?_, ?_, ?_⟩
      · rw [calls_of_call hcall, serveAll, hq, Option.bind_some, hserve]
        rfl
      · rw [hsent, calls_of_call hcall]
        simp [writtenAll]
      · simp [hdied, hcall]

theorem length_of_serveAll {μ : Type} {prog : ℕ → μ → Option (Option Reply × ℕ)} {ms : List μ} {n last : ℕ}
    {rs : List (Option Reply)} (h : serveAll prog n ms = some (rs, last)) : rs.length = ms.length := by
  induction ms generalizing n rs with
  | nil =>
    cases h
    rfl
  | cons m ms ih =>
    obtain ⟨r, hr, hrest⟩ := Option.bind_eq_some_iff.mp h
    obtain ⟨⟨rest, last'⟩, hrs, heq⟩ := Option.map_eq_some_iff.mp hrest
    cases heq
    rw [List.length_cons, List.length_cons, ih hrs]

theorem serveAll_append_eq {μ : Type} (prog : ℕ → μ → Option (Option Reply × ℕ)) (n : ℕ) (ms ms' : List μ) :
    serveAll prog n (ms ++ ms') = (serveAll prog n ms).bind fun r =>
      (serveAll prog r.2 ms').map fun r' => (r.1 ++ r'.1, r'.2) := by
  induction ms generalizing n with
  | nil => simp [serveAll]
  | cons m ms ih =>
    rw [List.cons_append, serveAll, serveAll]
    cases prog n m with
    | none => rfl
    | some r =>
      rw [Option.bind_some, Option.bind_some, ih, Option.map_bind, Option.bind_map]
      congr 1
      funext r'
      simp [Option.map_map, Function.comp_def]

omit [DecidableEq ι] in
theorem serveAll_map (c : ι) (ms : List (Message κ)) :
    serveAll (fun n e => prog n e.2) count (ms.map (c, ·)) = serveAll prog count ms := by
  induction ms generalizing count with
  | nil => rfl
  | cons m ms ih =>
    rw [List.map_cons, serveAll, serveAll]
    congr 1
    funext r
    rw [ih]

theorem writtenTo_append (c : ι) {ms ms' : List (ι × Message κ)} {rs rs' : List (Option Reply)}
    (h : rs.length = ms.length) :
    writtenTo c (ms ++ ms') (rs ++ rs') = writtenTo c ms rs ++ writtenTo c ms' rs' := by
  rw [writtenTo, List.zip_append h.symm, List.flatMap_append]
  rfl

theorem writtenTo_map (c d : ι) (ms : List (Message κ)) (rs : List (Option Reply)) :
    writtenTo c (ms.map (d, ·)) rs = if d = c then writtenAll ms rs else [] := by
  rw [writtenTo, List.zip_map_left, List.flatMap_map]
  by_cases hd : d = c
  · simp [hd, writtenAll]
  · simp [hd]

section Runs

variable {s s' : State ι} {e : ι × List (Option (List Byte) × κ)} {es : List (ι × List (Option (List Byte) × κ))}

omit [DecidableEq ι] in
theorem accepted_cons : accepted xdrCallmsg (e :: es) =
    (calls xdrCallmsg e.2).map (e.1, ·) ++ accepted xdrCallmsg es := by
  rw [accepted, List.flatMap_cons]
  rfl

omit [DecidableEq ι] in
theorem possible_cons_iff : Possible xdrCallmsg (e :: es) ↔ e.2 ≠ [] ∧
    (∀ d ∈ es, e.1 = d.1 → ∀ p ∈ e.2, call xdrCallmsg p ≠ none) ∧ Possible xdrCallmsg es := by
  rw [Possible, Possible, List.forall_mem_cons, List.pairwise_cons]
  tauto

theorem step_eq_some (h : step xdrCallmsg prog s e = some s') :
    (s.conns e.1).strmStat ≠ .died ∧ e.2 ≠ [] ∧
      ∃ rs, serveAll prog s.count (calls xdrCallmsg e.2) = some (rs, s'.count) ∧
        ∀ c, (s'.conns c).sent = (s.conns c).sent ++
            writtenTo c ((calls xdrCallmsg e.2).map (e.1, ·)) rs ∧
          ((s'.conns c).strmStat = .died ↔ (s.conns c).strmStat = .died ∨
            e.1 = c ∧ ∃ p ∈ e.2, call xdrCallmsg p = none) := by
  rw [step] at h
  split at h
  · cases h
  · next hlive =>
    rw [not_or] at hlive
    obtain ⟨r, hr, rfl⟩ := Option.map_eq_some_iff.mp h
    obtain ⟨rs, hserve, hsent, hdied⟩ := getreq_eq_some hlive.1 hr
    refine ⟨hlive.1, hlive.2, rs, hserve, ?_⟩
    intro c
    rw [writtenTo_map]
    by_cases hc : e.1 = c
    · subst hc
      simp [hsent, hdied, hlive.1]
    · simp [hc, Function.update_of_ne (Ne.symm hc)]

theorem isSome_step : (step xdrCallmsg prog s e).isSome ↔ (s.conns e.1).strmStat ≠ .died ∧ e.2 ≠ [] ∧
    (serveAll prog s.count (calls xdrCallmsg e.2)).isSome := by
  rw [step]
  by_cases hdied : (s.conns e.1).strmStat = .died ∨ e.2 = []
  · rw [if_pos hdied]
    simp only [Option.isSome_none, Bool.false_eq_true, false_iff]
    tauto
  · rw [if_neg hdied, Option.isSome_map]
    rw [not_or] at hdied
    rw [isSome_getreq hdied.1]
    tauto

theorem isSome_run : (EventRuns.run (step xdrCallmsg prog) s es).isSome ↔
    (∀ e ∈ es, (s.conns e.1).strmStat ≠ .died) ∧ Possible xdrCallmsg es ∧
      (serveAll (fun n e => prog n e.2) s.count (accepted xdrCallmsg es)).isSome := by
  induction es generalizing s with
  | nil => simp [EventRuns.run, Possible, accepted, serveAll]
  | cons e es ih =>
    have hhead : (step xdrCallmsg prog s e).isSome ↔ _ := isSome_step
    rw [EventRuns.run, possible_cons_iff, accepted_cons, serveAll_append_eq, serveAll_map, List.forall_mem_cons]
    cases ht : step xdrCallmsg prog s e with
    | none =>
      rw [ht] at hhead
      cases hserve : serveAll prog s.count (calls xdrCallmsg e.2) with
      | none => simp
      | some r =>
        rw [hserve] at hhead
        simp at hhead ⊢
        tauto
    | some t =>
      obtain ⟨hlive, hne, rs, hserve, hconns⟩ := step_eq_some ht
      have hdied : (∀ d ∈ es, (t.conns d.1).strmStat ≠ .died) ↔ (∀ d ∈ es, (s.conns d.1).strmStat ≠ .died) ∧
          ∀ d ∈ es, e.1 = d.1 → ∀ p ∈ e.2, call xdrCallmsg p ≠ none := by
        simp only [(hconns _).2, not_or, not_and, not_exists, ne_eq]
        rw [← forall₂_and]
      rw [Option.bind_some, ih, hdied, hserve, Option.bind_some, Option.isSome_map]
      tauto

theorem run_eq_some (h : EventRuns.run (step xdrCallmsg prog) s es = some s') :
    ∃ rs, serveAll (fun n e => prog n e.2) s.count (accepted xdrCallmsg es) = some (rs, s'.count) ∧
      ∀ c, (s'.conns c).sent = (s.conns c).sent ++ writtenTo c (accepted xdrCallmsg es) rs ∧
        ((s'.conns c).strmStat = .died ↔ (s.conns c).strmStat = .died ∨
          ∃ e ∈ es, e.1 = c ∧ ∃ p ∈ e.2, call xdrCallmsg p = none) := by
  induction es generalizing s with
  | nil =>
    cases h
    exact ⟨[], rfl, by simp [accepted, writtenTo]⟩
  | cons e es ih =>
    obtain ⟨t, ht, hrest⟩ := Option.bind_eq_some_iff.mp h
    obtain ⟨-, -, rs, hserve, hconns⟩ := step_eq_some ht
    obtain ⟨rs', hserve', hconns'⟩ := ih hrest
    have hlength : rs.length = ((calls xdrCallmsg e.2).map (e.1, ·)).length := by
      rw [List.length_map]
      exact length_of_serveAll hserve
    refine ⟨rs ++ rs', ?_, ?_⟩
    · rw [accepted_cons, serveAll_append_eq, serveAll_map, hserve, Option.bind_some, hserve']
      rfl
    · intro c
      rw [accepted_cons, writtenTo_append c hlength, (hconns' c).1, (hconns c).1, List.append_assoc,
        (hconns' c).2, (hconns c).2, or_assoc, List.exists_mem_cons_iff]
      exact ⟨rfl, Iff.rfl⟩

end Runs

/-- Connections are only a way for calls to arrive. Whatever portions of records come from whichever
connections, the service goes on as long as its program does when it is called with the calls one
after another, and comes to the same state; each connection is sent the answers to its own calls, in
their order and with their transactions, and has died if and only if something came from it that is
no call, behind which no call of it is read. -/
theorem run_serves_calls (xdrCallmsg : List Byte → Option (RpcMsg × List Byte))
    (prog : ℕ → Message κ → Option (Option Reply × ℕ)) (xId : ι → BitVec 32) (count : ℕ)
    (es : List (ι × List (Option (List Byte) × κ))) :
    ((EventRuns.run (step xdrCallmsg prog) (init xId count) es).isSome ↔ Possible xdrCallmsg es ∧
        (serveAll (fun n e => prog n e.2) count (accepted xdrCallmsg es)).isSome) ∧
      ∀ s, EventRuns.run (step xdrCallmsg prog) (init xId count) es = some s →
        ∃ rs, serveAll (fun n e => prog n e.2) count (accepted xdrCallmsg es) = some (rs, s.count) ∧
          ∀ c, (s.conns c).sent = writtenTo c (accepted xdrCallmsg es) rs ∧
            ((s.conns c).strmStat = .died ↔ ∃ e ∈ es, e.1 = c ∧ ∃ p ∈ e.2, call xdrCallmsg p = none) := by
  constructor
  · rw [isSome_run]
    simp [init, makefdXprt]
  · intro s h
    obtain ⟨rs, hserve, hconns⟩ := run_eq_some h
    refine ⟨rs, hserve, ?_⟩
    intro c
    simpa [init, makefdXprt] using hconns c

end Connections

section TestService

def testprog : BitVec 32 := 0x20008000

def testprogVers1 : BitVec 32 := 1

/-- The service with the dispatcher it has registered; what the library itself answers to calls of
another program or version is a parameter. -/
def service (other : Reply) (count : ℕ) (m : Message Gnutls.System) : Option (Option Reply × ℕ) :=
  if m.1.cbProg = testprog ∧ m.1.cbVers = testprogVers1 then
    Gnutls.testprog1 count (⟨m.1.cbProc, m.2.1⟩, m.2.2)
  else some (some other, count)

def serviceMark (m : Message Gnutls.System) : Mark :=
  if m.1.cbProg = testprog ∧ m.1.cbVers = testprogVers1 then Gnutls.mark (⟨m.1.cbProc, m.2.1⟩, m.2.2) else .passes

theorem counting_service (other : Reply) : Counting (service other) serviceMark := by
  have hcounting := Gnutls.counting_testprog1.comap
    fun m : Message Gnutls.System => ((⟨m.1.cbProc, m.2.1⟩, m.2.2) : Call × Gnutls.System)
  constructor
  · intro n m r hmark hr
    rw [serviceMark] at hmark
    split at hmark
    · next htest =>
      rw [service, if_pos htest] at hr
      exact hcounting.adds hmark hr
    · cases hmark
  · intro n m hmark
    rw [serviceMark] at hmark
    split at hmark
    · next htest =>
      rw [service, if_pos htest]
      exact hcounting.reads n m hmark
    · cases hmark
  · intro n m r hmark hr
    rw [serviceMark] at hmark
    rw [service] at hr
    split at hmark
    · next htest =>
      rw [if_pos htest] at hr
      exact hcounting.passes hmark hr
    · next htest =>
      rw [if_neg htest] at hr
      cases hr
      rfl

/-- The numbers that reach the clients over all connections, and the one the service is left with,
make up the calls that were counted. -/
theorem sum_sent {ι : Type} [DecidableEq ι] {xdrCallmsg : List Byte → Option (RpcMsg × List Byte)}
    {other : Reply} {xId : ι → BitVec 32} {n : ℕ} {s : State ι}
    {es : List (ι × List (Option (List Byte) × Gnutls.System))} (hn : n ≤ intMax)
    (h : EventRuns.run (step xdrCallmsg (service other)) (init xId n) es = some s) :
    ∃ rs, (∀ c, (s.conns c).sent = writtenTo c (accepted xdrCallmsg es) rs) ∧
      (answers (fun e => serviceMark e.2) (accepted xdrCallmsg es) rs).sum + s.count =
        n + (accepted xdrCallmsg es).countP (fun e => serviceMark e.2 = .adds) := by
  obtain ⟨rs, hserve, hconns⟩ := run_eq_some h
  have hcounting := (counting_service other).comap fun e : ι × Message Gnutls.System => e.2
  refine ⟨rs, ?_, hcounting.sum_answers hn hserve⟩
  intro c
  simpa [init, makefdXprt] using (hconns c).1

end TestService

end WorkCode.RecordConnections
