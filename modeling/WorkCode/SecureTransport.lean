import WorkCode.BlockChannels
import WorkCode.ByteMemory
import WorkCode.EventRuns
import Mathlib.Data.List.Infix

/-!
# The secured transport

The functions that the record streams of the test service and its clients read and write
through, over one connection. GnuTLS is a parameter: a state for each direction, which holds
what is on the way and what either end keeps of it, and the calls on it. What `poll` says and what
else decides about a call of the library is given with each call.
-/

namespace WorkCode.SecureTransport

open BlockChannels EventRuns

/-- `revents` of a `struct pollfd`, as far as it is looked at. -/
structure Revents where
  pollin : Bool
  pollerr : Bool
  pollhup : Bool
  pollnval : Bool
  deriving DecidableEq, Repr

inductive Poll
  | failed (eintr : Bool)
  | timeout
  | ready (revents : Revents)
  deriving DecidableEq, Repr

/-- The calls of GnuTLS on one direction of a connection, after the handshake. `gnutls_record_recv`
returns a number and has stored some bytes, unless it does not return; of a buffer that
`gnutls_record_send` is given, `took` says how many bytes go on the way. -/
structure GnuTls (γ ω : Type) where
  start : γ
  gnutlsRecordRecv : ω → ℕ → γ → Option (ℤ × List Byte × γ)
  gnutlsRecordSend : ω → List Byte → γ → ℤ × γ
  gnutlsBye : ω → γ → γ
  took : ω → List Byte → γ → ℕ
  unread : γ → List Byte

/-- What the documentation says: bytes come out in the order in which they were taken, an error stores
nothing and another result is the number of bytes stored; a first part of a buffer is taken, and
a result that is no error is its length. -/
structure GnuTls.Documented {γ ω : Type} (lib : GnuTls γ ω) : Prop where
  start : lib.unread lib.start = []
  recv : ∀ {w len g n data g'}, lib.gnutlsRecordRecv w len g = some (n, data, g') →
    data ++ lib.unread g' = lib.unread g ∧ n.toNat = data.length
  send : ∀ w buf g, lib.unread (lib.gnutlsRecordSend w buf g).2 = lib.unread g ++ buf.take (lib.took w buf g)
  sent : ∀ w buf g, 0 ≤ (lib.gnutlsRecordSend w buf g).1 → (lib.gnutlsRecordSend w buf g).1 = lib.took w buf g
  bye : ∀ w g, lib.unread (lib.gnutlsBye w g) = lib.unread g

section Calls

variable {γ ω : Type} (lib : GnuTls γ ω)

namespace Server

/-- The loop around `poll` in `readtcp` of the server: whether it is left towards the read. `stale` is
the bit `POLLIN` of `pollfd.revents`, which nobody has set when the first call is interrupted:
`continue` goes to the test of the loop all the same. -/
def wait (stale : Bool) : List Poll → Option Bool
  | [] => none
  | .failed true :: polls => if stale then some true else wait stale polls
  | .failed false :: _ => some false
  | .timeout :: _ => some false
  | .ready revents :: polls =>
    if revents.pollerr || revents.pollhup || revents.pollnval then some false
    else if revents.pollin then some true
    else wait false polls

/-- `readtcp`, with whether `strm_stat` becomes `XPRT_DIED`. -/
def readtcp (stale : Bool) (polls : List Poll) (w : ω) (len : ℕ) (g : γ) : Option (ℤ × List Byte × γ × Bool) :=
  match wait stale polls with
  | none => none
  | some false => some (-1, [], g, true)
  | some true => (lib.gnutlsRecordRecv w len g).map fun r =>
    if 0 < r.1 then (r.1, r.2.1, r.2.2, false) else (-1, r.2.1, r.2.2, true)

/-- `writetcp`: what the library returns is not looked at. -/
def writetcp (w : ω) (buf : List Byte) (g : γ) : ℤ × γ := (buf.length, (lib.gnutlsRecordSend w buf g).2)

end Server

namespace Client

inductive ClntStat
  | timedOut
  | cantRecv
  | cantSend
  deriving DecidableEq, Repr

/-- The loop around `poll` in `readtcp` of the clients: the error with which it ends, if any. -/
def wait : List Poll → Option (Option ClntStat)
  | [] => none
  | .timeout :: _ => some (some .timedOut)
  | .failed true :: polls => wait polls
  | .failed false :: _ => some (some .cantRecv)
  | .ready _ :: _ => some none

/-- `readtcp`, with the error it records. Of the errors of the library only -1 is one here. -/
def readtcp (polls : List Poll) (w : ω) (len : ℕ) (g : γ) : Option (ℤ × List Byte × γ × Option ClntStat) :=
  if len = 0 then some (0, [], g, none)
  else match wait polls with
    | none => none
    | some (some error) => some (-1, [], g, some error)
    | some none => (lib.gnutlsRecordRecv w len g).map fun r =>
      if r.1 = 0 then (-1, r.2.1, r.2.2, some .cantRecv)
      else if r.1 = -1 then (r.1, r.2.1, r.2.2, some .cantRecv)
      else (r.1, r.2.1, r.2.2, none)

def writetcp (w : ω) (buf : List Byte) (g : γ) : ℤ × γ × Option ClntStat :=
  let sent := lib.gnutlsRecordSend w buf g
  if sent.1 < 0 then (-1, sent.2, some .cantSend) else (buf.length, sent.2, none)

end Client

end Calls

section Session

variable {γ ω : Type} (lib : GnuTls γ ω)

structure Direction (γ : Type) where
  state : γ
  /-- all that the library has taken -/
  taken : List Byte
  /-- all that the results of the library have confirmed -/
  confirmed : List Byte
  /-- all that `writetcp` has reported as written -/
  reported : List Byte
  /-- all that `readtcp` has handed out -/
  got : List Byte
  closed : Bool

def Direction.fresh : Direction γ := ⟨lib.start, [], [], [], [], false⟩

def Direction.write (w : ω) (buf : List Byte) (result : ℤ) (state : γ) (d : Direction γ) : Direction γ :=
  { d with
    state := state
    taken := d.taken ++ buf.take (lib.took w buf d.state)
    confirmed := d.confirmed ++ buf.take (lib.gnutlsRecordSend w buf d.state).1.toNat
    reported := if result < 0 then d.reported else d.reported ++ buf }

/-- A `readtcp` that returned `result`: the caller takes as many of the bytes that were stored. -/
def Direction.read (result : ℤ) (data : List Byte) (state : γ) (d : Direction γ) : Direction γ :=
  { d with state := state, got := d.got ++ data.take result.toNat }

def Direction.destroy (w : ω) (d : Direction γ) : Direction γ :=
  { d with state := lib.gnutlsBye w d.state, closed := true }

structure Session (γ : Type) where
  toServer : Direction γ
  toClient : Direction γ
  /-- `strm_stat` is `XPRT_DIED` -/
  died : Bool
  /-- `ct_error.re_status` -/
  ctError : Option Client.ClntStat

def Session.fresh : Session γ := ⟨.fresh lib, .fresh lib, false, none⟩

inductive Event (ω : Type)
  | clientWrite (buf : List Byte) (w : ω)
  | clientRead (len : ℕ) (polls : List Poll) (w : ω)
  | clientDestroy (w : ω)
  | serverWrite (buf : List Byte) (w : ω)
  | serverRead (len : ℕ) (stale : Bool) (polls : List Poll) (w : ω)
  | serverDestroy (w : ω)

/-- A call that does not return is no step. The service destroys a connection only when it
has died. -/
def step (s : Session γ) : Event ω → Option (Session γ)
  | .clientWrite buf w =>
    if s.toServer.closed then none
    else
      let r := Client.writetcp lib w buf s.toServer.state
      some { s with
        toServer := s.toServer.write lib w buf r.1 r.2.1
        ctError := r.2.2.or s.ctError }
  | .clientRead len polls w =>
    (Client.readtcp lib polls w len s.toClient.state).map fun r => { s with
      toClient := s.toClient.read r.1 r.2.1 r.2.2.1
      ctError := r.2.2.2.or s.ctError }
  | .clientDestroy w => some { s with toServer := s.toServer.destroy lib w }
  | .serverWrite buf w =>
    if s.toClient.closed then none
    else
      let r := Server.writetcp lib w buf s.toClient.state
      some { s with toClient := s.toClient.write lib w buf r.1 r.2 }
  | .serverRead len stale polls w =>
    (Server.readtcp lib stale polls w len s.toServer.state).map fun r => { s with
      toServer := s.toServer.read r.1 r.2.1 r.2.2.1
      died := s.died || r.2.2.2 }
  | .serverDestroy w => if s.died then some { s with toClient := s.toClient.destroy lib w } else none

/-- What is taken is read in order, what is confirmed has been taken, and no more of it is confirmed
than was reported. -/
structure Direction.Consistent (d : Direction γ) : Prop where
  read : d.got ++ lib.unread d.state = d.taken
  taken : d.confirmed.Sublist d.taken
  confirmed_le : d.confirmed.length ≤ d.reported.length

/-- The writes that do what they report: the library confirms the whole buffer, unless a client
is told of an error. -/
def Whole (s : Session γ) : Event ω → Prop
  | .clientWrite buf w =>
    let n := (lib.gnutlsRecordSend w buf s.toServer.state).1
    n < 0 ∨ buf.length ≤ n.toNat
  | .serverWrite buf w => buf.length ≤ (lib.gnutlsRecordSend w buf s.toClient.state).1.toNat
  | _ => True

variable {lib}

section Directions

variable (h : lib.Documented) {d : Direction γ}
include h

theorem Direction.Consistent.read_of_recv (hd : d.Consistent lib) {w : ω} {len : ℕ} {n result : ℤ} {data : List Byte}
    {g : γ} (hrecv : lib.gnutlsRecordRecv w len d.state = some (n, data, g)) (hresult : result.toNat = n.toNat) :
    (d.read result data g).Consistent lib := by
  obtain ⟨hunread, hlength⟩ := h.recv hrecv
  refine ⟨?_, hd.taken, hd.confirmed_le⟩
  rw [Direction.read, hresult, hlength, List.take_length, List.append_assoc, hunread]
  exact hd.read

theorem Direction.Consistent.serverRead (hd : d.Consistent lib) {stale : Bool} {polls : List Poll} {w : ω} {len : ℕ}
    {r : ℤ × List Byte × γ × Bool} (hr : Server.readtcp lib stale polls w len d.state = some r) :
    (d.read r.1 r.2.1 r.2.2.1).Consistent lib := by
  rw [Server.readtcp] at hr
  split at hr
  · cases hr
  · cases hr
    exact ⟨by simpa [Direction.read] using hd.read, hd.taken, hd.confirmed_le⟩
  · obtain ⟨⟨n, data, g⟩, hrecv, rfl⟩ := Option.map_eq_some_iff.mp hr
    dsimp only
    split
    · exact hd.read_of_recv h hrecv rfl
    · exact hd.read_of_recv h hrecv (by omega)

theorem Direction.Consistent.clientRead (hd : d.Consistent lib) {polls : List Poll} {w : ω} {len : ℕ}
    {r : ℤ × List Byte × γ × Option Client.ClntStat} (hr : Client.readtcp lib polls w len d.state = some r) :
    (d.read r.1 r.2.1 r.2.2.1).Consistent lib := by
  have hnothing : ∀ result : ℤ, (d.read result [] d.state).Consistent lib := by
    intro result
    exact ⟨by simpa [Direction.read] using hd.read, hd.taken, hd.confirmed_le⟩
  rw [Client.readtcp] at hr
  split at hr
  · cases hr
    exact hnothing 0
  · split at hr
    · cases hr
    · cases hr
      exact hnothing (-1)
    · obtain ⟨⟨n, data, g⟩, hrecv, rfl⟩ := Option.map_eq_some_iff.mp hr
      dsimp only
      split
      · exact hd.read_of_recv h hrecv (by omega)
      · split <;> exact hd.read_of_recv h hrecv rfl

theorem Direction.Consistent.write_step (hd : d.Consistent lib) {w : ω} {buf : List Byte} {result : ℤ}
    (htold : result < 0 → (lib.gnutlsRecordSend w buf d.state).1 < 0) :
    (d.write lib w buf result (lib.gnutlsRecordSend w buf d.state).2).Consistent lib := by
  refine ⟨?_, ?_, ?_⟩
  · simp only [Direction.write]
    rw [h.send, ← List.append_assoc, hd.read]
  · apply hd.taken.append
    by_cases hsent : 0 ≤ (lib.gnutlsRecordSend w buf d.state).1
    · rw [h.sent w buf d.state hsent, Int.toNat_natCast]
    · have hzero : (lib.gnutlsRecordSend w buf d.state).1.toNat = 0 := by omega
      rw [hzero, List.take_zero]
      exact List.nil_sublist _
  · have hle := hd.confirmed_le
    have htake := List.length_take_le' (lib.gnutlsRecordSend w buf d.state).1.toNat buf
    simp only [Direction.write, List.length_append]
    split
    · next hfailed =>
      have hzero : (lib.gnutlsRecordSend w buf d.state).1.toNat = 0 := by
        have := htold hfailed
        omega
      rw [hzero, List.take_zero, List.length_nil]
      exact hle
    · rw [List.length_append]
      omega

end Directions

theorem append_eq_append_iff_of_le {xs ys zs ws : List Byte} (hle : ys.length ≤ xs.length)
    (hle' : ws.length ≤ zs.length) : xs ++ zs = ys ++ ws ↔ xs = ys ∧ zs = ws := by
  constructor
  · intro h
    have hlen := congrArg List.length h
    rw [List.length_append, List.length_append] at hlen
    exact List.append_inj h (by omega)
  · intro h
    rw [h.1, h.2]

theorem Direction.Consistent.write_reported_iff {d : Direction γ} (hd : d.Consistent lib) {w : ω} {buf : List Byte}
    {result : ℤ} (htold : result < 0 → (lib.gnutlsRecordSend w buf d.state).1 < 0) (state : γ) :
    (d.write lib w buf result state).reported = (d.write lib w buf result state).confirmed ↔
      d.reported = d.confirmed ∧ (result < 0 ∨ buf.length ≤ (lib.gnutlsRecordSend w buf d.state).1.toNat) := by
  have hle := hd.confirmed_le
  simp only [Direction.write]
  split
  · next hfailed =>
    have hzero : (lib.gnutlsRecordSend w buf d.state).1.toNat = 0 := by
      have := htold hfailed
      omega
    rw [hzero, List.take_zero, List.append_nil]
    simp [hfailed]
  · next hwritten =>
    rw [append_eq_append_iff_of_le hle (List.length_take_le' _ buf), eq_comm (a := buf), List.take_eq_self_iff]
    simp [hwritten]

theorem Client.writetcp_neg_iff (w : ω) (buf : List Byte) (g : γ) :
    (Client.writetcp lib w buf g).1 < 0 ↔ (lib.gnutlsRecordSend w buf g).1 < 0 := by
  simp only [Client.writetcp]
  split
  · next hfailed => simp [hfailed]
  · next hsent =>
    simp only [hsent, iff_false, not_lt]
    exact Int.natCast_nonneg _

theorem Client.writetcp_state (w : ω) (buf : List Byte) (g : γ) :
    (Client.writetcp lib w buf g).2.1 = (lib.gnutlsRecordSend w buf g).2 := by
  simp only [Client.writetcp]
  split <;> rfl

theorem Server.writetcp_nonneg (w : ω) (buf : List Byte) (g : γ) : ¬(Server.writetcp lib w buf g).1 < 0 :=
  not_lt.mpr (Int.natCast_nonneg _)

/-- One call keeps both directions consistent, and keeps what is reported true exactly if it does
what it reports. -/
theorem step_consistent (h : lib.Documented) {s s' : Session γ} {e : Event ω}
    (hs : s.toServer.Consistent lib ∧ s.toClient.Consistent lib) (hstep : step lib s e = some s') :
    (s'.toServer.Consistent lib ∧ s'.toClient.Consistent lib) ∧
      ((s'.toServer.reported = s'.toServer.confirmed ∧ s'.toClient.reported = s'.toClient.confirmed) ↔
        (s.toServer.reported = s.toServer.confirmed ∧ s.toClient.reported = s.toClient.confirmed) ∧
          Whole lib s e) := by
  obtain ⟨hserver, hclient⟩ := hs
  cases e with
  | clientWrite buf w =>
    rw [step] at hstep
    split at hstep
    · cases hstep
    · cases hstep
      have htold := (@Client.writetcp_neg_iff _ _ lib w buf s.toServer.state).mp
      refine ⟨⟨?_, hclient⟩, ?_⟩
      · rw [Client.writetcp_state]
        exact hserver.write_step h htold
      · simp only [hserver.write_reported_iff htold, Client.writetcp_neg_iff, Whole, and_right_comm]
  | clientRead len polls w =>
    obtain ⟨r, hr, rfl⟩ := Option.map_eq_some_iff.mp hstep
    refine ⟨⟨hserver, hclient.clientRead h hr⟩, ?_⟩
    simp [Direction.read, Whole]
  | clientDestroy w =>
    cases hstep
    refine ⟨⟨⟨?_, hserver.taken, hserver.confirmed_le⟩, hclient⟩, by simp [Direction.destroy, Whole]⟩
    rw [Direction.destroy, h.bye]
    exact hserver.read
  | serverWrite buf w =>
    rw [step] at hstep
    split at hstep
    · cases hstep
    · cases hstep
      have htold : (Server.writetcp lib w buf s.toClient.state).1 < 0 →
          (lib.gnutlsRecordSend w buf s.toClient.state).1 < 0 := by
        intro hfailed
        exact absurd hfailed (Server.writetcp_nonneg w buf _)
      refine ⟨⟨hserver, hclient.write_step h htold⟩, ?_⟩
      simp only [hclient.write_reported_iff htold, Server.writetcp_nonneg, false_or, Whole, and_assoc]
  | serverRead len stale polls w =>
    obtain ⟨r, hr, rfl⟩ := Option.map_eq_some_iff.mp hstep
    refine ⟨⟨hserver.serverRead h hr, hclient⟩, ?_⟩
    simp [Direction.read, Whole]
  | serverDestroy w =>
    rw [step] at hstep
    split at hstep
    · cases hstep
      refine ⟨⟨hserver, ⟨?_, hclient.taken, hclient.confirmed_le⟩⟩, by simp [Direction.destroy, Whole]⟩
      rw [Direction.destroy, h.bye]
      exact hclient.read
    · cases hstep

theorem consistent_fresh (h : lib.Documented) : (Direction.fresh lib).Consistent lib :=
  ⟨h.start, List.Sublist.refl _, le_refl 0⟩

/-- Whatever both sides do over a connection, and whatever `poll` and the library come to: each
side reads a first part of what the library has taken of the other one, in order, and what the
library has confirmed it has taken. What `writetcp` reports as written has all been confirmed
exactly if every buffer was confirmed whole, but for those that a client was told an error of:
the service does not look. -/
theorem run_sound (h : lib.Documented) {es : List (Event ω)} {s : Session γ}
    (hrun : run (step lib) (Session.fresh lib) es = some s) :
    (s.toServer.got <+: s.toServer.taken ∧ s.toClient.got <+: s.toClient.taken) ∧
      (s.toServer.confirmed.Sublist s.toServer.taken ∧ s.toClient.confirmed.Sublist s.toClient.taken) ∧
      ((s.toServer.reported = s.toServer.confirmed ∧ s.toClient.reported = s.toClient.confirmed) ↔
        Along (step lib) (Whole lib) (Session.fresh lib) es) := by
  have hfresh : (Session.fresh lib).toServer.Consistent lib ∧ (Session.fresh lib).toClient.Consistent lib :=
    ⟨consistent_fresh h, consistent_fresh h⟩
  have hconsistent : s.toServer.Consistent lib ∧ s.toClient.Consistent lib :=
    invariant_run (P := fun s : Session γ => s.toServer.Consistent lib ∧ s.toClient.Consistent lib)
      (fun _ _ _ hs _ hstep => (step_consistent h hs hstep).1) hfresh
      (@along_of_forall _ _ (step lib) (fun _ _ => True) (fun _ _ => trivial) (Session.fresh lib) es) hrun
  have hreported := run_iff (I := fun s : Session γ => s.toServer.Consistent lib ∧ s.toClient.Consistent lib)
    (P := fun s => s.toServer.reported = s.toServer.confirmed ∧ s.toClient.reported = s.toClient.confirmed)
    (fun _ _ _ hs hstep => (step_consistent h hs hstep).1) (fun _ _ _ hs hstep => (step_consistent h hs hstep).2)
    hfresh hrun
  refine ⟨⟨⟨_, hconsistent.1.read⟩, ⟨_, hconsistent.2.read⟩⟩, ⟨hconsistent.1.taken, hconsistent.2.taken⟩,
    hreported.trans ?_⟩
  exact and_iff_right ⟨rfl, rfl⟩

end Session

section Silence

variable {γ ω : Type}

variable {lib : GnuTls γ ω} {quiet : ω} {poll : γ → List Poll} {channel : γ → Channel Byte} {len : ℕ} {g : γ}

end Silence

section Samples

/-- A library that keeps a channel of records. Each of its calls fails with the code it is given, if
any; a record holds up to 16384 bytes. -/
def channelTls : GnuTls (Channel Byte) (Option ℕ) where
  start := .empty
  gnutlsRecordRecv
    | some code, _, c => some (-(code + 1), [], c)
    | none, len, c => (c.receive len).map fun r => ((r.1.length : ℤ), r.1, r.2)
  gnutlsRecordSend
    | some code, _, c => (-(code + 1), c)
    | none, buf, c => ((buf.take 16384).length, c.send (buf.take 16384))
  gnutlsBye _ c := c
  took
    | some _, _, _ => 0
    | none, buf, _ => (buf.take 16384).length
  unread := Channel.contents

theorem documented_channelTls : channelTls.Documented where
  start := rfl
  recv := by
    intro w len c n data c' h
    cases w with
    | some code =>
      cases h
      exact ⟨rfl, Int.toNat_eq_zero.mpr (by omega)⟩
    | none =>
      obtain ⟨⟨got, rest⟩, hreceive, hr⟩ := Option.map_eq_some_iff.mp h
      cases hr
      exact ⟨contents_receive hreceive, Int.toNat_natCast _⟩
  send := by
    intro w buf c
    cases w with
    | some code => exact (List.append_nil _).symm
    | none => exact (contents_send c _).trans (by simp [channelTls])
  sent := by
    intro w buf c h
    cases w with
    | some code =>
      have hneg : (0 : ℤ) ≤ -(code + 1) := h
      omega
    | none => rfl
  bye _ _ := rfl

def refusedReply : List (Event (Option ℕ)) :=
  [.clientWrite [1, 2] none, .serverRead 4000 false [.failed true, .ready ⟨true, false, false, false⟩] none,
    .serverWrite [3] (some 9)]

theorem run_sound_refusedReply :
    (([1, 2] : List Byte) <+: [1, 2] ∧ ([] : List Byte) <+: []) ∧
      (([1, 2] : List Byte).Sublist [1, 2] ∧ ([] : List Byte).Sublist []) ∧
      ((([1, 2] : List Byte) = [1, 2] ∧ ([3] : List Byte) = []) ↔
        Along (step channelTls) (Whole channelTls) (Session.fresh channelTls) refusedReply) :=
  @run_sound _ _ channelTls documented_channelTls refusedReply
    ⟨⟨.empty, [1, 2], [1, 2], [1, 2], [1, 2], false⟩, ⟨.empty, [], [], [3], [], false⟩, false, none⟩ rfl

end Samples

end WorkCode.SecureTransport
