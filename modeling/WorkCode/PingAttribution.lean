import WorkCode.EchoReplies
import WorkCode.EventRuns

/-!
# Whose reply `CORE_Ping` counts

Processes of one host ping any targets at the same time. Replies can be lost, delayed and
reordered, and every ICMP datagram that comes in reaches every open raw ICMP socket. A call
sends one request, takes one datagram from its socket and returns the sequence number in
it.

Requests are numbered in the order in which they are sent. A datagram carries along, unseen
by the program, which request it answers.
-/

namespace WorkCode.PingAttribution

open EchoRequestBuilders EchoReplies EventRuns

abbrev Addr := BitVec 32

variable {abi : Abi}

structure Request where
  pid : BitVec 32
  host : Addr
  s_Index : BitVec 32
  stack : Mem
  now : Timeval

def Request.packet (abi : Abi) (request : Request) : List Byte :=
  corePingRequest abi request.stack request.s_Index request.pid request.now

structure Request.SentBy (request : Request) (pid : BitVec 32) (host : Addr)
    (s_Index : BitVec 32) : Prop where
  pid_eq : request.pid = pid
  host_eq : request.host = host
  s_Index_eq : request.s_Index = s_Index

structure Datagram where
  source : Addr
  bytes : List Byte
  answers : Option ℕ

/-- A call of `CORE_Ping` from the moment its socket is open: the datagrams that the socket
holds, and the number of the request once it has been sent. -/
structure Ping where
  host : Addr
  s_Index : BitVec 32
  queue : List Datagram
  request : Option ℕ

structure Return where
  pid : BitVec 32
  host : Addr
  s_Index : BitVec 32
  request : Option ℕ
  received : Option Datagram
  s_Return : ℤ

structure State where
  procs : BitVec 32 → Option Ping
  requests : List Request
  net : List Datagram
  returns : List Return

def init : State := ⟨fun _ => none, [], [], []⟩

/-- What can happen: a call opens its socket, sends, receives or fails (also by timeout); a
host answers a request; another datagram comes up; a datagram arrives. -/
inductive Event
  | call (pid : BitVec 32) (host : Addr) (s_Index : BitVec 32)
  | send (pid : BitVec 32) (stack : Mem) (now : Timeval)
  | receive (pid : BitVec 32)
  | fail (pid : BitVec 32)
  | answer (request : ℕ) (header : IpHeader) (check : BitVec 16)
  | other (source : Addr) (bytes : List Byte)
  | deliver (datagram : ℕ)

def State.setProc (s : State) (pid : BitVec 32) (ping : Option Ping) : State :=
  { s with procs := Function.update s.procs pid ping }

def State.deliver (s : State) (d : Datagram) : State :=
  let take (ping : Ping) : Ping := { ping with queue := ping.queue ++ [d] }
  { s with procs := fun pid => (s.procs pid).map take }

/-- One step, `none` when it is not possible. Datagrams stay in `net`: one that is never
delivered is lost, and delivery happens in any order. -/
def step (abi : Abi) (s : State) : Event → Option State
  | .call pid host s_Index => match s.procs pid with
    | none => some (s.setProc pid (some ⟨host, s_Index, [], none⟩))
    | some _ => none
  | .send pid stack now => match s.procs pid with
    | some ⟨host, s_Index, queue, none⟩ =>
      let s' := s.setProc pid (some ⟨host, s_Index, queue, some s.requests.length⟩)
      some { s' with requests := s.requests ++ [⟨pid, host, s_Index, stack, now⟩] }
    | _ => none
  | .receive pid => match s.procs pid with
    | some ⟨host, s_Index, d :: _, some request⟩ =>
      let s' := s.setProc pid none
      some { s' with returns := s.returns ++
        [⟨pid, host, s_Index, some request, some d, sReturn abi.order d.bytes⟩] }
    | _ => none
  | .fail pid => match s.procs pid with
    | some ⟨host, s_Index, _, request⟩ =>
      let s' := s.setProc pid none
      some { s' with returns := s.returns ++ [⟨pid, host, s_Index, request, none, -1⟩] }
    | none => none
  | .answer i header check => match s.requests[i]? with
    | some request =>
      let bytes := echoReply abi.order header check (request.packet abi)
      some { s with net := s.net ++ [⟨request.host, bytes, some i⟩] }
    | none => none
  | .other source bytes => some { s with net := s.net ++ [⟨source, bytes, none⟩] }
  | .deliver i => match s.net[i]? with
    | some d => some (s.deliver d)
    | none => none

/-- The call sent a request with the sequence number that it returned, and the datagram it
received is the echo reply that its host sent to that very request. -/
def Return.Answered (r : Return) (s : State) : Prop :=
  ∃ i request d, r.request = some i ∧ s.requests[i]? = some request ∧
    request.SentBy r.pid r.host r.s_Index ∧ requestSeq request.s_Index = r.s_Index.toNat ∧
    r.received = some d ∧ d ∈ s.net ∧ d.source = r.host ∧ d.answers = some i

def Faithful (s : State) : Prop :=
  ∀ r ∈ s.returns, r.s_Return = r.s_Index.toNat → r.Answered s

/-- A datagram in the socket of a call that may be counted: it comes from the host and has
the identifier of the process, which are the two things the code does not compare; it
answers a request at all; and no other request has the same host, identifier and sequence
number as the one that it answers. -/
structure Attributed (abi : Abi) (s : State) (pid : BitVec 32) (host : Addr)
    (s_Index : BitVec 32) (i : ℕ) (d : Datagram) : Prop where
  source : d.source = host
  id : icmpId abi.order (received d.bytes) = requestId pid
  answers : d.answers.isSome
  notLate : ∀ j request, d.answers = some j → s.requests[j]? = some request →
    request.host = host → requestId request.pid = requestId pid →
    requestSeq request.s_Index = requestSeq s_Index → j = i

/-- A call that takes a datagram with its own sequence number may count it. -/
def Attributable (abi : Abi) (s : State) : Event → Prop
  | .receive pid => ∀ host s_Index d queue i,
    s.procs pid = some ⟨host, s_Index, d :: queue, some i⟩ →
    sReturn abi.order d.bytes = s_Index.toNat → Attributed abi s pid host s_Index i d
  | _ => True

structure Datagram.Answers (abi : Abi) (d : Datagram) (request : Request) : Prop where
  source : d.source = request.host
  id : icmpId abi.order (received d.bytes) = requestId request.pid
  seq : icmpSeq abi.order (received d.bytes) = requestSeq request.s_Index

/-- Sockets hold what is in the network, labels are right, and a request number is that of
the request the call sent. -/
structure Inv (abi : Abi) (s : State) : Prop where
  queued : ∀ pid ping, s.procs pid = some ping → ∀ d ∈ ping.queue, d ∈ s.net
  sent : ∀ pid ping i, s.procs pid = some ping → ping.request = some i →
    ∃ request, s.requests[i]? = some request ∧ request.SentBy pid ping.host ping.s_Index
  labelled : ∀ d ∈ s.net, ∀ i, d.answers = some i →
    ∃ request, s.requests[i]? = some request ∧ d.Answers abi request
  returned : ∀ r ∈ s.returns, (∀ d, r.received = some d → d ∈ s.net) ∧
    ∀ i, r.request = some i →
      ∃ request, s.requests[i]? = some request ∧ request.SentBy r.pid r.host r.s_Index
  s_Return_lt : ∀ r ∈ s.returns, r.s_Return < 65536

theorem inv_init : Inv abi init where
  queued := by
    intro pid ping h
    cases h
  sent := by
    intro pid ping i h
    cases h
  labelled := by
    intro d h
    cases h
  returned := by
    intro r h
    cases h
  s_Return_lt := by
    intro r h
    cases h

theorem procs_setProc {s : State} {pid pid' : BitVec 32} {next : Option Ping} {ping : Ping}
    (h : (s.setProc pid next).procs pid' = some ping) :
    (pid' = pid ∧ next = some ping) ∨ s.procs pid' = some ping := by
  by_cases hpid : pid' = pid
  · left
    refine ⟨hpid, ?_⟩
    simpa [State.setProc, hpid] using h
  · right
    simpa [State.setProc, Function.update_of_ne hpid] using h

theorem getElem?_append_of_some {α : Type*} {l : List α} {i : ℕ} {x : α} (h : l[i]? = some x)
    (y : α) : (l ++ [y])[i]? = some x := by
  rw [List.getElem?_append_left (List.getElem?_eq_some_iff.mp h).1, h]

theorem Inv.returns {s : State} (hs : Inv abi s) {pid : BitVec 32} {ping : Ping}
    (hping : s.procs pid = some ping) {d : Option Datagram} (hd : ∀ x, d = some x → x ∈ ping.queue)
    {value : ℤ} (hvalue : value < 65536) :
    Inv abi { s.setProc pid none with
      returns := s.returns ++ [⟨pid, ping.host, ping.s_Index, ping.request, d, value⟩] } where
  queued := by
    intro pid' ping' hping'
    rcases procs_setProc hping' with hnew | hold
    · cases hnew.2
    · exact hs.queued pid' ping' hold
  sent := by
    intro pid' ping' i hping'
    rcases procs_setProc hping' with hnew | hold
    · cases hnew.2
    · exact hs.sent pid' ping' i hold
  labelled := hs.labelled
  returned := by
    intro r hr
    rcases List.mem_append.mp hr with hold | hnew
    · exact hs.returned r hold
    · rw [List.mem_singleton.mp hnew]
      refine ⟨?_, ?_⟩
      · intro x hx
        exact hs.queued pid ping hping x (hd x hx)
      · intro i hi
        exact hs.sent pid ping i hping hi
  s_Return_lt := by
    intro r hr
    rcases List.mem_append.mp hr with hold | hnew
    · exact hs.s_Return_lt r hold
    · rw [List.mem_singleton.mp hnew]
      exact hvalue

theorem Inv.sends {s : State} (hs : Inv abi s) {d : Datagram}
    (hd : ∀ i, d.answers = some i →
      ∃ request, s.requests[i]? = some request ∧ d.Answers abi request) :
    Inv abi { s with net := s.net ++ [d] } where
  queued := by
    intro pid ping hping x hx
    exact List.mem_append_left _ (hs.queued pid ping hping x hx)
  sent := hs.sent
  labelled := by
    intro x hx
    rcases List.mem_append.mp hx with hold | hnew
    · exact hs.labelled x hold
    · rw [List.mem_singleton.mp hnew]
      exact hd
  returned := by
    intro r hr
    obtain ⟨hreceived, hrequest⟩ := hs.returned r hr
    exact ⟨fun x hx => List.mem_append_left _ (hreceived x hx), hrequest⟩
  s_Return_lt := hs.s_Return_lt

theorem Inv.step {s s' : State} {e : Event} (hs : Inv abi s) (h : step abi s e = some s') :
    Inv abi s' := by
  cases e with
  | call pid host s_Index =>
    simp only [PingAttribution.step] at h
    split at h
    · cases h
      refine ⟨?_, ?_, hs.labelled, hs.returned, hs.s_Return_lt⟩
      · intro pid' ping hping
        rcases procs_setProc hping with hnew | hold
        · cases hnew.2
          intro d hd
          cases hd
        · exact hs.queued pid' ping hold
      · intro pid' ping i hping
        rcases procs_setProc hping with hnew | hold
        · cases hnew.2
          intro hi
          cases hi
        · exact hs.sent pid' ping i hold
    · cases h
  | send pid stack now =>
    simp only [PingAttribution.step] at h
    split at h
    · next host s_Index queue hping =>
      cases h
      have hgrown : ∀ {i : ℕ} {P : Request → Prop}, (∃ request, s.requests[i]? = some request ∧ P request) →
          ∃ request, (s.requests ++ [⟨pid, host, s_Index, stack, now⟩])[i]? = some request ∧ P request := by
        rintro i P ⟨request, hrequest, hP⟩
        exact ⟨request, getElem?_append_of_some hrequest _, hP⟩
      refine ⟨?_, ?_, ?_, ?_, hs.s_Return_lt⟩
      · intro pid' ping hping'
        rcases procs_setProc hping' with hnew | hold
        · cases hnew.2
          exact hs.queued pid ⟨host, s_Index, queue, none⟩ hping
        · exact hs.queued pid' ping hold
      · intro pid' ping i hping' hi
        rcases procs_setProc hping' with hnew | hold
        · cases hnew.2
          cases hi
          rw [hnew.1]
          exact ⟨_, List.getElem?_concat_length, rfl, rfl, rfl⟩
        · exact hgrown (hs.sent pid' ping i hold hi)
      · intro d hd i hi
        exact hgrown (hs.labelled d hd i hi)
      · intro r hr
        obtain ⟨hreceived, hrequest⟩ := hs.returned r hr
        exact ⟨hreceived, fun i hi => hgrown (hrequest i hi)⟩
    · cases h
  | receive pid =>
    simp only [PingAttribution.step] at h
    split at h
    · next host s_Index d queue request hping =>
      cases h
      exact hs.returns hping (d := some d) (fun x hx => by cases hx; exact List.mem_cons_self)
        (sReturn_lt _ _)
    · cases h
  | fail pid =>
    simp only [PingAttribution.step] at h
    split at h
    · next host s_Index queue request hping =>
      cases h
      exact hs.returns hping (d := none) (fun x hx => by cases hx) (by decide)
    · cases h
  | answer i header check =>
    simp only [PingAttribution.step] at h
    split at h
    · next request hrequest =>
      cases h
      apply hs.sends
      intro j hj
      cases hj
      exact ⟨request, hrequest, rfl, icmpId_echoReply abi header check _ _ _ _,
        icmpSeq_echoReply abi header check _ _ _ _⟩
    · cases h
  | other source bytes =>
    cases h
    apply hs.sends
    intro i hi
    cases hi
  | deliver i =>
    simp only [PingAttribution.step] at h
    split at h
    · next d hd =>
      cases h
      have hmem : d ∈ s.net := List.mem_of_getElem? hd
      refine ⟨?_, ?_, hs.labelled, hs.returned, hs.s_Return_lt⟩
      · intro pid ping hping
        obtain ⟨ping', hping', rfl⟩ := Option.map_eq_some_iff.mp hping
        intro x hx
        rcases List.mem_append.mp hx with hold | hnew
        · exact hs.queued pid ping' hping' x hold
        · rw [List.mem_singleton.mp hnew]
          exact hmem
      · intro pid ping j hping hj
        obtain ⟨ping', hping', rfl⟩ := Option.map_eq_some_iff.mp hping
        exact hs.sent pid ping' j hping' hj
    · cases h

theorem icmpSeq_of_sReturn {o : ByteOrder} {datagram : List Byte} {n : ℕ}
    (h : sReturn o datagram = n) : icmpSeq o (received datagram) = n := by
  simp only [sReturn] at h
  split at h
  · split at h
    · omega
    · omega
  · omega

/-- What a call may count is the answer to its own request. -/
theorem Inv.attributed_iff {s : State} (hs : Inv abi s) {pid : BitVec 32} {ping : Ping} {i : ℕ}
    (hping : s.procs pid = some ping) (hi : ping.request = some i) {d : Datagram}
    (hd : d ∈ ping.queue) (hreturn : sReturn abi.order d.bytes = ping.s_Index.toNat) :
    Attributed abi s pid ping.host ping.s_Index i d ↔ d.answers = some i := by
  have hnet : d ∈ s.net := hs.queued pid ping hping d hd
  constructor
  · intro h
    obtain ⟨j, hj⟩ := Option.isSome_iff_exists.mp h.answers
    obtain ⟨request, hrequest, hanswers⟩ := hs.labelled d hnet j hj
    have hseq : requestSeq request.s_Index = requestSeq ping.s_Index := by
      have hlt := sReturn_lt abi.order d.bytes
      rw [← hanswers.seq, icmpSeq_of_sReturn hreturn, requestSeq, Nat.mod_eq_of_lt (by omega)]
    have hown := h.notLate j request hj hrequest (hanswers.source.symm.trans h.source)
      (hanswers.id.symm.trans h.id) hseq
    rw [hj, hown]
  · intro h
    obtain ⟨request, hrequest, hanswers⟩ := hs.labelled d hnet i h
    obtain ⟨request', hrequest', hsent⟩ := hs.sent pid ping i hping hi
    rw [hrequest] at hrequest'
    cases hrequest'
    refine ⟨?_, ?_, by rw [h]; rfl, ?_⟩
    · rw [hanswers.source, hsent.host_eq]
    · rw [hanswers.id, hsent.pid_eq]
    · intro j other hj
      rw [h] at hj
      cases hj
      intros
      rfl

def Return.Own (r : Return) : Prop :=
  r.s_Return = r.s_Index.toNat → ∃ i d, r.request = some i ∧ r.received = some d ∧ d.answers = some i

/-- In a state with the invariant the labels decide whether a call was answered. -/
theorem Inv.faithful_iff_own {s : State} (hs : Inv abi s) :
    Faithful s ↔ ∀ r ∈ s.returns, r.Own := by
  constructor
  · intro h r hr hreturn
    obtain ⟨i, request, d, hi, -, -, -, hd, -, -, hanswers⟩ := h r hr hreturn
    exact ⟨i, d, hi, hd, hanswers⟩
  · intro h r hr hreturn
    obtain ⟨i, d, hi, hd, hanswers⟩ := h r hr hreturn
    obtain ⟨hreceived, hrequests⟩ := hs.returned r hr
    obtain ⟨request, hrequest, hsent⟩ := hrequests i hi
    obtain ⟨request', hrequest', hlabel⟩ := hs.labelled d (hreceived d hd) i hanswers
    rw [hrequest] at hrequest'
    cases hrequest'
    have hseq : requestSeq request.s_Index = r.s_Index.toNat := by
      have hlt := hs.s_Return_lt r hr
      rw [hsent.s_Index_eq, requestSeq, Nat.mod_eq_of_lt (by omega)]
    exact ⟨i, request, d, hi, hrequest, hsent, hseq, hd, hreceived d hd,
      hlabel.source.trans hsent.host_eq, hanswers⟩

/-- What a step adds to the records: nothing, the return of a call that received a datagram,
or that of one that failed. -/
theorem step_returns {s s' : State} {e : Event} (h : step abi s e = some s') :
    (s'.returns = s.returns ∧ Attributable abi s e) ∨
    (∃ pid host s_Index d queue i, e = .receive pid ∧
      s.procs pid = some ⟨host, s_Index, d :: queue, some i⟩ ∧ s'.returns = s.returns ++
        [⟨pid, host, s_Index, some i, some d, sReturn abi.order d.bytes⟩]) ∨
    (∃ r : Return, r.s_Return = -1 ∧ s'.returns = s.returns ++ [r] ∧ Attributable abi s e) := by
  cases e with
  | call pid host s_Index =>
    simp only [step] at h
    split at h
    · cases h
      exact .inl ⟨rfl, trivial⟩
    · cases h
  | send pid stack now =>
    simp only [step] at h
    split at h
    · cases h
      exact .inl ⟨rfl, trivial⟩
    · cases h
  | receive pid =>
    simp only [step] at h
    split at h
    · next host s_Index d queue i hping =>
      cases h
      exact .inr (.inl ⟨pid, host, s_Index, d, queue, i, rfl, hping, rfl⟩)
    · cases h
  | fail pid =>
    simp only [step] at h
    split at h
    · cases h
      exact .inr (.inr ⟨_, rfl, rfl, trivial⟩)
    · cases h
  | answer i header check =>
    simp only [step] at h
    split at h
    · cases h
      exact .inl ⟨rfl, trivial⟩
    · cases h
  | other source bytes =>
    cases h
    exact .inl ⟨rfl, trivial⟩
  | deliver i =>
    simp only [step] at h
    split at h
    · cases h
      exact .inl ⟨rfl, trivial⟩
    · cases h

theorem Inv.own_step_iff {s s' : State} {e : Event} (hs : Inv abi s)
    (h : PingAttribution.step abi s e = some s') :
    (∀ r ∈ s'.returns, r.Own) ↔ (∀ r ∈ s.returns, r.Own) ∧ Attributable abi s e := by
  rcases step_returns h with ⟨hreturns, hok⟩ |
    ⟨pid, host, s_Index, d, queue, i, rfl, hping, hreturns⟩ | ⟨r, hfailed, hreturns, hok⟩
  · rw [hreturns]
    exact (and_iff_left hok).symm
  · rw [hreturns, List.forall_mem_append, List.forall_mem_singleton]
    apply and_congr_right
    intro hold
    constructor
    · intro hown host' s_Index' d' queue' i' hping' hreturn
      rw [hping] at hping'
      cases hping'
      obtain ⟨j, x, hj, hx, hanswers⟩ := hown hreturn
      cases hj
      cases hx
      exact (hs.attributed_iff hping rfl List.mem_cons_self hreturn).mpr hanswers
    · intro hok hreturn
      have hattributed := hok host s_Index d queue i hping hreturn
      exact ⟨i, d, rfl, rfl,
        (hs.attributed_iff hping rfl List.mem_cons_self hreturn).mp hattributed⟩
  · rw [hreturns, List.forall_mem_append, List.forall_mem_singleton, and_iff_left hok]
    apply and_iff_left
    intro hreturn
    -- a failed call returns -1, which is no sequence number
    rw [hfailed] at hreturn
    omega

/-- In a run every call that returns its `s_Index` was answered by its host if and only if
every datagram that a call counts is one that it may attribute to its request. -/
theorem faithful_iff_attributable (abi : Abi) (es : List Event) (s : State)
    (hrun : run (step abi) init es = some s) :
    Faithful s ↔ Along (step abi) (Attributable abi) init es := by
  have hinit : Inv abi init := inv_init
  have hany : Along (step abi) (fun _ _ => True) init es := along_of_forall (fun _ _ => trivial) _ _
  have hinv : Inv abi s := invariant_run (fun _ _ _ hs _ h => hs.step h) hinit hany hrun
  have hown := run_iff (fun _ _ _ hs h => Inv.step hs h) (fun _ _ _ hs h => Inv.own_step_iff hs h)
    hinit hrun
  have hstart : ∀ r ∈ init.returns, r.Own := by
    intro r hr
    cases hr
  rw [hinv.faithful_iff_own, hown]
  exact and_iff_right hstart

def lp64 : Abi := Abi.lp64 .little

def ipHeader : IpHeader := ⟨0x45 :: List.replicate 19 0, by decide⟩

def noStack : Mem := fun _ => 0

def answeredPing : List Event :=
  [.call 7 0x08080808 1, .send 7 noStack ⟨0, 0⟩, .answer 0 ipHeader 0, .deliver 0, .receive 7]

theorem faithful_iff_attributable_answeredPing :
    ∃ s, run (step lp64) init answeredPing = some s ∧
      (Faithful s ↔ Along (step lp64) (Attributable lp64) init answeredPing) :=
  ⟨_, rfl, faithful_iff_attributable lp64 answeredPing _ rfl⟩

/-- Two processes ping two hosts, each with its first sequence number. Only the first host
answers, and the second process takes that answer from its socket. -/
def crossedPings : List Event :=
  [.call 1 0x0a000001 1, .call 2 0x0a000002 1, .send 1 noStack ⟨0, 0⟩, .send 2 noStack ⟨0, 0⟩,
    .answer 0 ipHeader 0, .deliver 0, .receive 2]

def crossedReply : List Byte :=
  echoReply lp64.order ipHeader 0 (corePingRequest lp64 noStack 1 1 ⟨0, 0⟩)

theorem sReturn_crossedReply : sReturn lp64.order crossedReply = (1 : BitVec 32).toNat := by
  rw [crossedReply, sReturn_echoReply]
  decide

theorem crossedPings_not_faithful :
    ¬ ∀ (es : List Event) (s : State), run (step lp64) init es = some s → Faithful s := by
  intro h
  obtain ⟨s, hrun, hreturns⟩ : ∃ s, run (step lp64) init crossedPings = some s ∧ s.returns =
      [⟨2, 0x0a000002, 1, some 1, some ⟨0x0a000001, crossedReply, some 0⟩,
        sReturn lp64.order crossedReply⟩] := ⟨_, rfl, rfl⟩
  have hfaithful := h crossedPings s hrun
  rw [Faithful, hreturns, List.forall_mem_singleton] at hfaithful
  dsimp only at hfaithful
  obtain ⟨i, request, d, hi, -, -, -, hd, -, -, hanswers⟩ := hfaithful sReturn_crossedReply
  cases hi
  cases hd
  cases hanswers

end WorkCode.PingAttribution
