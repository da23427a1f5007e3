import WorkCode.EchoReplyOverlay

/-!
# The rounds of `Ping`

`Ping` sends up to four requests and after each one waits and takes one datagram from the
raw socket. It ends with 1 as soon as the source address is that of the host; the type, the
identifier and the sequence number of what came in are not looked at, and neither are the
results of `sendto` and `recvfrom`.
-/

namespace WorkCode.PingRounds

open EchoRequestBuilders EchoRequestFields EchoReplies EchoReplyOverlay

/-- What the system does in one round: the time of day, the results of `sendto`, `select`
and `recvfrom`, and what the stack of `RecvEchoReply` holds. -/
structure Round where
  now : Timeval
  sendto : ℤ
  select : ℤ
  recvfrom : Option Datagram
  stack : Mem

/-- What a call of `Ping` meets; `saSrc` is what the uninitialised variable holds. -/
structure World where
  rawSocket : ℤ
  gethostbyname : Option Addr
  saSrc : Addr
  rounds : ℕ → Round

structure State where
  statics : EchoStatics
  saSrc : Addr
  result : ℤ
  sent : List (List Byte)
  received : List Datagram

/-- `SendEchoRequest(rawSocket, &saDest)`, whose result is not used. -/
def State.sendEchoRequest (abi : Abi) (round : Round) (s : State) : State :=
  let request := EchoRequestBuilders.sendEchoRequest abi s.statics round.now
  let sent := if round.sendto = -1 then s.sent else s.sent ++ [request.1]
  { s with statics := request.2, sent := sent }

/-- `RecvEchoReply(rawSocket, &saSrc, &cTTL)`; the time and the TTL are printed at most. -/
def State.recvEchoReply (abi : Abi) (round : Round) (s : State) : State :=
  let reply := EchoReplyOverlay.recvEchoReply abi round.stack s.saSrc round.recvfrom
  { s with saSrc := reply.lpsaFrom, received := s.received ++ round.recvfrom.toList }

/-- The body of the loop, and whether it ends in a `break`. -/
def body (abi : Abi) (saDest : Addr) (round : Round) (s : State) : State × Bool :=
  let s := s.sendEchoRequest abi round
  let nRet := round.select
  if nRet = -1 then ({ s with result := 0 }, true)
  else if nRet = 0 then ({ s with result := 0 }, true)
  else
    let s := s.recvEchoReply abi round
    if s.saSrc = saDest then ({ s with result := 1 }, true)
    else ({ s with result := 0 }, false)

/-- The loop from `nLoop` on, with `left` rounds left. -/
def loop (abi : Abi) (saDest : Addr) (rounds : ℕ → Round) : ℕ → ℕ → State → State
  | 0, _, s => s
  | left + 1, nLoop, s => match body abi saDest (rounds nLoop) s with
    | (s, true) => s
    | (s, false) => loop abi saDest rounds left (nLoop + 1) s

/-- `Ping`: the state in which it returns `result`. -/
def ping (abi : Abi) (world : World) (statics : EchoStatics) : State :=
  let s : State := ⟨statics, world.saSrc, 0, [], []⟩
  if world.rawSocket = -1 then s
  else match world.gethostbyname with
    | none => s
    | some saDest => loop abi saDest world.rounds 4 0 s

structure IsEchoReply (o : ByteOrder) (bytes : List Byte) (id seq : ℕ) : Prop where
  length : ihl bytes + 8 ≤ bytes.length
  type : bytes.getD (ihl bytes) 0 = ICMP_ECHOREPLY
  id : field o bytes (ihl bytes + 4) 2 = id
  seq : field o bytes (ihl bytes + 6) 2 = seq

/-- A result of 1 means that the host has answered a request of this call. -/
def Sound (abi : Abi) (world : World) (statics : EchoStatics) : Prop :=
  (ping abi world statics).result = 1 → ∃ host, world.gethostbyname = some host ∧
    ∃ d ∈ (ping abi world statics).received, d.source = host ∧
      ∃ request ∈ (ping abi world statics).sent,
        IsEchoReply abi.order d.bytes (decode abi request).id (decode abi request).seq

/-- What `saSrc` holds after `n` rounds: the last source address that was stored. -/
def saSrcAfter (world : World) : ℕ → Addr
  | 0 => world.saSrc
  | n + 1 => ((world.rounds n).recvfrom.map (·.source)).getD (saSrcAfter world n)

def Ready (round : Round) : Prop := round.select ≠ -1 ∧ round.select ≠ 0

/-- The first round that ends with the address of the host in `saSrc`, all `select`s up to
it having found data. -/
structure Decides (world : World) (host : Addr) (i : ℕ) : Prop where
  ready : ∀ j ≤ i, Ready (world.rounds j)
  match_i : saSrcAfter world (i + 1) = host
  first : ∀ j < i, saSrcAfter world (j + 1) ≠ host

/-- The datagram of this round is an echo reply to a request that one of the rounds so far
has sent. -/
def Genuine (abi : Abi) (world : World) (statics : EchoStatics) (i : ℕ) : Prop :=
  ∃ d, (world.rounds i).recvfrom = some d ∧ ∃ j ≤ i, (world.rounds j).sendto ≠ -1 ∧
    IsEchoReply abi.order d.bytes ((statics.nId.toNat + j) % 65536)
      ((statics.nSeq.toNat + j) % 65536)

theorem Decides.unique {world : World} {host : Addr} {i j : ℕ} (hi : Decides world host i)
    (hj : Decides world host j) : i = j := by
  rcases Nat.lt_trichotomy i j with hlt | heq | hgt
  · exact absurd hi.match_i (hj.first i hlt)
  · exact heq
  · exact absurd hj.match_i (hi.first j hgt)

section Loop

variable (abi : Abi) (world : World) (statics : EchoStatics)

def staticsAfter : ℕ → EchoStatics
  | 0 => statics
  | n + 1 => (sendEchoRequest abi (staticsAfter n) (world.rounds n).now).2

def request (j : ℕ) : List Byte :=
  (sendEchoRequest abi (staticsAfter abi world statics j) (world.rounds j).now).1

def sentIn (n : ℕ) : List (List Byte) :=
  ((List.range n).filter fun j => (world.rounds j).sendto ≠ -1).map (request abi world statics)

def receivedIn (n : ℕ) : List Datagram :=
  (List.range n).filterMap fun j => (world.rounds j).recvfrom

theorem counters_staticsAfter (j : ℕ) :
    (staticsAfter abi world statics j).nId = statics.nId + BitVec.ofNat 32 j ∧
      (staticsAfter abi world statics j).nSeq = statics.nSeq + BitVec.ofNat 32 j := by
  induction j with
  | zero => simp [staticsAfter]
  | succ j ih =>
    rw [BitVec.ofNat_add, ← BitVec.add_assoc, ← BitVec.add_assoc, ← ih.1, ← ih.2]
    exact ⟨rfl, rfl⟩

theorem fields_request (j : ℕ) :
    (decode abi (request abi world statics j)).id = (statics.nId.toNat + j) % 65536 ∧
      (decode abi (request abi world statics j)).seq = (statics.nSeq.toNat + j) % 65536 := by
  obtain ⟨hnId, hnSeq⟩ := counters_staticsAfter abi world statics j
  rw [request, id_sendEchoRequest, seq_sendEchoRequest, hnId, hnSeq, BitVec.toNat_add,
    BitVec.toNat_add, BitVec.toNat_ofNat]
  constructor
  · omega
  · omega

theorem mem_sentIn_iff {n : ℕ} {packet : List Byte} : packet ∈ sentIn abi world statics n ↔
    ∃ j < n, (world.rounds j).sendto ≠ -1 ∧ request abi world statics j = packet := by
  simp only [sentIn, List.mem_map, List.mem_filter, List.mem_range, decide_eq_true_eq, and_assoc]

theorem mem_receivedIn_iff {n : ℕ} {d : Datagram} :
    d ∈ receivedIn world n ↔ ∃ j < n, (world.rounds j).recvfrom = some d := by
  simp only [receivedIn, List.mem_filterMap, List.mem_range]

structure After (n : ℕ) (s : State) : Prop where
  statics_eq : s.statics = staticsAfter abi world statics n
  saSrc_eq : s.saSrc = saSrcAfter world n
  sent_eq : s.sent = sentIn abi world statics n
  received_eq : s.received = receivedIn world n

variable {abi world statics}

theorem sentIn_succ (n : ℕ) : sentIn abi world statics (n + 1) =
    if (world.rounds n).sendto = -1 then sentIn abi world statics n
    else sentIn abi world statics n ++ [request abi world statics n] := by
  rw [sentIn, List.range_succ, List.filter_append, List.map_append]
  by_cases hsend : (world.rounds n).sendto = -1
  · simp [hsend, sentIn]
  · simp [hsend, sentIn]

theorem receivedIn_succ (n : ℕ) :
    receivedIn world (n + 1) = receivedIn world n ++ (world.rounds n).recvfrom.toList := by
  rw [receivedIn, List.range_succ, List.filterMap_append]
  cases hrecv : (world.rounds n).recvfrom with
  | none => simp [hrecv, receivedIn]
  | some d => simp [hrecv, receivedIn]

theorem After.round {n : ℕ} {s : State} (hs : After abi world statics n s) :
    After abi world statics (n + 1)
      ((s.sendEchoRequest abi (world.rounds n)).recvEchoReply abi (world.rounds n)) where
  statics_eq := by
    rw [staticsAfter, ← hs.statics_eq]
    rfl
  saSrc_eq := by
    rw [saSrcAfter, ← hs.saSrc_eq]
    rfl
  sent_eq := by
    rw [sentIn_succ, ← hs.sent_eq, request, ← hs.statics_eq]
    rfl
  received_eq := by
    rw [receivedIn_succ, ← hs.received_eq]
    rfl

theorem body_of_not_ready (abi : Abi) (host : Addr) {round : Round} (h : ¬ Ready round) (s : State) :
    ∃ s', body abi host round s = (s', true) ∧ s'.result = 0 := by
  simp only [body]
  split
  · exact ⟨_, rfl, rfl⟩
  · split
    · exact ⟨_, rfl, rfl⟩
    · next herror htimeout => exact absurd ⟨herror, htimeout⟩ h

theorem body_of_ready {host : Addr} {round : Round} (h : Ready round) (s : State) :
    body abi host round s =
      let s := (s.sendEchoRequest abi round).recvEchoReply abi round
      if s.saSrc = host then ({ s with result := 1 }, true) else ({ s with result := 0 }, false) := by
  simp only [body]
  rw [if_neg h.1, if_neg h.2]

theorem After.body_of_match {n : ℕ} {s : State} (hs : After abi world statics n s)
    {host : Addr} (hready : Ready (world.rounds n)) (h : saSrcAfter world (n + 1) = host) :
    ∃ s', body abi host (world.rounds n) s = (s', true) ∧ s'.result = 1 ∧
      After abi world statics (n + 1) s' := by
  have hround := hs.round
  rw [body_of_ready hready]
  refine ⟨_, if_pos (hround.saSrc_eq.trans h), rfl, ?_⟩
  exact ⟨hround.statics_eq, hround.saSrc_eq, hround.sent_eq, hround.received_eq⟩

theorem After.body_of_other {n : ℕ} {s : State} (hs : After abi world statics n s)
    {host : Addr} (hready : Ready (world.rounds n)) (h : saSrcAfter world (n + 1) ≠ host) :
    ∃ s', body abi host (world.rounds n) s = (s', false) ∧ s'.result = 0 ∧
      After abi world statics (n + 1) s' := by
  have hround := hs.round
  rw [body_of_ready hready]
  refine ⟨_, if_neg (hround.saSrc_eq ▸ h), rfl, ?_⟩
  exact ⟨hround.statics_eq, hround.saSrc_eq, hround.sent_eq, hround.received_eq⟩

/-- The loop ends with 1 in the round that decides, if one is reached, and else with 0. -/
theorem loop_spec (host : Addr) (left n : ℕ) {s : State} (hs : After abi world statics n s)
    (hresult : s.result = 0) (hready : ∀ j < n, Ready (world.rounds j))
    (hfirst : ∀ j < n, saSrcAfter world (j + 1) ≠ host) :
    (∃ i < n + left, Decides world host i ∧ (loop abi host world.rounds left n s).result = 1 ∧
        After abi world statics (i + 1) (loop abi host world.rounds left n s)) ∨
      ((loop abi host world.rounds left n s).result = 0 ∧ ∀ i < n + left, ¬ Decides world host i) := by
  induction left generalizing n s with
  | zero =>
    right
    refine ⟨hresult, ?_⟩
    intro i hi hdecides
    exact hfirst i (by omega) hdecides.match_i
  | succ left ih =>
    by_cases hn : Ready (world.rounds n)
    · have hreadyNext : ∀ j ≤ n, Ready (world.rounds j) := by
        intro j hj
        rcases Nat.lt_or_eq_of_le hj with hlt | rfl
        · exact hready j hlt
        · exact hn
      by_cases hmatch : saSrcAfter world (n + 1) = host
      · left
        obtain ⟨s', hbody, hresult', hs'⟩ := hs.body_of_match hn hmatch
        have hloop : loop abi host world.rounds (left + 1) n s = s' := by rw [loop, hbody]
        rw [hloop]
        exact ⟨n, by omega, ⟨hreadyNext, hmatch, hfirst⟩, hresult', hs'⟩
      · obtain ⟨s', hbody, hresult', hs'⟩ := hs.body_of_other hn hmatch
        have hloop : loop abi host world.rounds (left + 1) n s =
            loop abi host world.rounds left (n + 1) s' := by rw [loop, hbody]
        rw [hloop, show n + (left + 1) = (n + 1) + left by omega]
        apply ih (n + 1) hs' hresult'
        · intro j hj
          exact hreadyNext j (Nat.le_of_lt_succ hj)
        · intro j hj
          rcases Nat.lt_succ_iff_lt_or_eq.mp hj with hlt | rfl
          · exact hfirst j hlt
          · exact hmatch
    · right
      obtain ⟨s', hbody, hresult'⟩ := body_of_not_ready abi host hn s
      have hloop : loop abi host world.rounds (left + 1) n s = s' := by rw [loop, hbody]
      rw [hloop]
      refine ⟨hresult', ?_⟩
      intro i hi hdecides
      rcases Nat.lt_or_ge i n with hlt | hge
      · exact hfirst i hlt hdecides.match_i
      · exact hn (hdecides.ready n hge)

end Loop

/-- In the deciding round the only datagram of the host is the one just received. -/
theorem Decides.genuine_iff {abi : Abi} {world : World} {statics : EchoStatics} {host : Addr}
    {i : ℕ} (hi : Decides world host i) : Genuine abi world statics i ↔
      ∃ d ∈ receivedIn world (i + 1), d.source = host ∧
        ∃ packet ∈ sentIn abi world statics (i + 1),
          IsEchoReply abi.order d.bytes (decode abi packet).id (decode abi packet).seq := by
  constructor
  · intro h
    obtain ⟨d, hd, j, hj, hsent, hreply⟩ := h
    have hsource : d.source = host := by
      rw [← hi.match_i, saSrcAfter, hd]
      rfl
    obtain ⟨hid, hseq⟩ := fields_request abi world statics j
    refine ⟨d, (mem_receivedIn_iff world).mpr ⟨i, by omega, hd⟩, hsource, request abi world statics j,
      (mem_sentIn_iff abi world statics).mpr ⟨j, by omega, hsent, rfl⟩, ?_⟩
    rw [hid, hseq]
    exact hreply
  · intro h
    obtain ⟨d, hd, hsource, packet, hpacket, hreply⟩ := h
    obtain ⟨k, hk, hrecv⟩ := (mem_receivedIn_iff world).mp hd
    obtain ⟨j, hj, hsent, rfl⟩ := (mem_sentIn_iff abi world statics).mp hpacket
    obtain ⟨hid, hseq⟩ := fields_request abi world statics j
    have hlast : k = i := by
      by_contra hne
      apply hi.first k (by omega)
      rw [saSrcAfter, hrecv]
      exact hsource
    rw [hid, hseq] at hreply
    rw [hlast] at hrecv
    exact ⟨d, hrecv, j, by omega, hsent, hreply⟩

/-- `Ping` is right exactly when the datagram that makes it return 1 is an echo reply to one
of its requests. -/
theorem ping_sound_iff (abi : Abi) (world : World) (statics : EchoStatics) :
    Sound abi world statics ↔ ∀ host i, world.rawSocket ≠ -1 → world.gethostbyname = some host →
      i < 4 → Decides world host i → Genuine abi world statics i := by
  by_cases hsocket : world.rawSocket = -1
  · have hping : (ping abi world statics).result = 0 := by simp only [ping, if_pos hsocket]
    simp [Sound, hping, hsocket]
  · cases hhost : world.gethostbyname with
    | none =>
      have hping : (ping abi world statics).result = 0 := by
        simp only [ping, if_neg hsocket, hhost]
      simp [Sound, hping]
    | some host =>
      have hping : ping abi world statics =
          loop abi host world.rounds 4 0 ⟨statics, world.saSrc, 0, [], []⟩ := by
        simp only [ping, if_neg hsocket, hhost]
      have hstart : After abi world statics 0 ⟨statics, world.saSrc, 0, [], []⟩ :=
        ⟨rfl, rfl, rfl, rfl⟩
      have hspec := loop_spec host 4 0 hstart rfl (by omega) (by omega)
      rw [← hping] at hspec
      simp only [Sound, hhost, Option.some.injEq]
      rcases hspec with ⟨i, hi, hdecides, hresult, hafter⟩ | ⟨hresult, hnone⟩
      · rw [hafter.sent_eq, hafter.received_eq]
        constructor
        · intro hsound host' j _ hhost' hj hdecides'
          obtain ⟨host'', hhost'', hreceived⟩ := hsound hresult
          cases hhost'
          cases hhost''
          rw [← hdecides.unique hdecides']
          exact hdecides.genuine_iff.mpr hreceived
        · intro hgenuine _
          exact ⟨host, rfl, hdecides.genuine_iff.mp (hgenuine host i hsocket rfl (by omega) hdecides)⟩
      · constructor
        · intro _ host' j _ hhost' hj hdecides
          cases hhost'
          exact absurd hdecides (hnone j (by omega))
        · intro _ hone
          rw [hresult] at hone
          cases hone

/-- The request itself, looped back: a raw socket receives it from the host it was sent to. -/
def loopback : World :=
  let header : List Byte := 0x45 :: List.replicate 19 0
  let request := (sendEchoRequest (Abi.lp64 .little) .initial ⟨0, 0⟩).1
  ⟨3, some 0x7f000001, 0, fun _ => ⟨⟨0, 0⟩, 49, 1, some ⟨0x7f000001, header ++ request⟩, fun _ => 0⟩⟩

/-- The datagram that is counted has the type of a request. -/
theorem loopback_not_sound :
    ¬ ∀ (abi : Abi) (world : World) (statics : EchoStatics), Sound abi world statics := by
  intro h
  obtain ⟨host, -, d, hd, -, request, -, hreply⟩ := h (Abi.lp64 .little) loopback .initial rfl
  have hreceived : d = ⟨0x7f000001, (0x45 :: List.replicate 19 0) ++
      (sendEchoRequest (Abi.lp64 .little) .initial ⟨0, 0⟩).1⟩ := List.mem_singleton.mp hd
  have htype := hreply.type
  rw [hreceived] at htype
  revert htype
  decide

end WorkCode.PingRounds
