import Mathlib.Data.List.Nodup
import Mathlib.Data.List.Perm.Basic
import WorkCode.EventRuns

/-!
# The transporters of the TLS service

A listening transporter makes one of each connection it accepts; that one is destroyed when its
stream has died. A connection takes a socket from the system and a session from the library,
and the code gives both back, but for one path.
-/

namespace WorkCode.Transporters

open EventRuns

inductive Accept
  | interrupted
  | failed
  | socket (sock : ℕ)
  deriving DecidableEq, Repr

/-- The loop to `again`; the socket that is accepted, if any. -/
def accepted : List Accept → Option (Option ℕ)
  | [] => none
  | .interrupted :: accepts => accepted accepts
  | .failed :: _ => some none
  | .socket sock :: _ => some (some sock)

/-- A transporter of a connection: `xp_sock` and `xp_p2`. -/
structure Transporter where
  xpSock : ℕ
  xpP2 : ℕ
  deriving DecidableEq, Repr

/-- What the process holds: the registered transporters, the open sockets and the sessions that
are not given back. -/
structure Service where
  registered : List Transporter
  sockets : List ℕ
  sessions : List ℕ
  deriving DecidableEq

def Service.fresh : Service := ⟨[], [], []⟩

/-- `rendezvous_request`, which gets `session` from `gnutls_init`. Without memory for the transporter
it writes through a null pointer. -/
def rendezvousRequest (session : ℕ) (accepts : List Accept) (handshake memory : Bool) (s : Service) : Option Service :=
  match accepted accepts with
  | none => none
  | some none => some { s with sessions := session :: s.sessions }
  | some (some sock) =>
    if handshake = false then
      some { s with
        sockets := (sock :: s.sockets).erase sock
        sessions := (session :: s.sessions).erase session }
    else if memory = false then none
    else some ⟨⟨sock, session⟩ :: s.registered, sock :: s.sockets, session :: s.sessions⟩

def svctcpDestroy (xprt : Transporter) (s : Service) : Service :=
  ⟨s.registered.erase xprt, s.sockets.erase xprt.xpSock, s.sessions.erase xprt.xpP2⟩

inductive Event
  | request (session : ℕ) (accepts : List Accept) (handshake memory : Bool)
  | died (xprt : Transporter)
  deriving DecidableEq

/-- The system gives out sockets that are not open, the library sessions that are not in use. -/
def step (s : Service) : Event → Option Service
  | .request session accepts handshake memory =>
    if session ∈ s.sessions ∨ ∃ sock ∈ s.sockets, accepted accepts = some (some sock) then none
    else rendezvousRequest session accepts handshake memory s
  | .died xprt => if xprt ∈ s.registered then some (svctcpDestroy xprt s) else none

def Event.fails : Event → Bool
  | .request _ accepts _ _ => accepted accepts = some none
  | .died _ => false

/-- The sockets are those of the transporters, the sessions are those of the transporters and some
that nobody has. -/
structure Accounted (lost : List ℕ) (s : Service) : Prop where
  sockets : s.sockets = s.registered.map Transporter.xpSock
  sessions : s.sessions.Perm (lost ++ s.registered.map Transporter.xpP2)
  sockets_nodup : s.sockets.Nodup
  sessions_nodup : s.sessions.Nodup

theorem map_erase_of_nodup {α β : Type} [DecidableEq α] [DecidableEq β] {f : α → β} {xs : List α} {x : α}
    (hnodup : (xs.map f).Nodup) (hx : x ∈ xs) : (xs.erase x).map f = (xs.map f).erase (f x) := by
  induction xs with
  | nil => cases hx
  | cons y ys ih =>
    rw [List.map_cons, List.nodup_cons] at hnodup
    by_cases hyx : y = x
    · rw [hyx, List.map_cons, List.erase_cons_head, List.erase_cons_head]
    · have hmem : x ∈ ys := (List.mem_cons.mp hx).resolve_left (Ne.symm hyx)
      have hne : f y ≠ f x := by
        intro heq
        exact hnodup.1 (heq ▸ List.mem_map_of_mem hmem)
      rw [List.erase_cons_tail (by simpa using hyx), List.map_cons, List.map_cons,
        List.erase_cons_tail (by simpa using hne), ih hnodup.2 hmem]

variable {lost : List ℕ} {s s' : Service}

theorem Accounted.registered_nodup (h : Accounted lost s) : (s.registered.map Transporter.xpP2).Nodup :=
  ((h.sessions.nodup_iff.mp h.sessions_nodup).of_append_right)

theorem Accounted.destroy (h : Accounted lost s) {xprt : Transporter} (hmem : xprt ∈ s.registered) :
    Accounted lost (svctcpDestroy xprt s) := by
  have hsocks : (s.registered.map Transporter.xpSock).Nodup := h.sockets ▸ h.sockets_nodup
  refine ⟨?_, ?_, h.sockets_nodup.erase _, h.sessions_nodup.erase _⟩
  · show s.sockets.erase xprt.xpSock = (s.registered.erase xprt).map Transporter.xpSock
    rw [h.sockets, map_erase_of_nodup hsocks hmem]
  · have hown : xprt.xpP2 ∉ lost := by
      intro hlost
      have hnodup := h.sessions.nodup_iff.mp h.sessions_nodup
      exact (List.nodup_append.mp hnodup).2.2 _ hlost _ (List.mem_map_of_mem hmem) rfl
    show (s.sessions.erase xprt.xpP2).Perm (lost ++ (s.registered.erase xprt).map Transporter.xpP2)
    rw [map_erase_of_nodup h.registered_nodup hmem, ← List.erase_append_right _ hown]
    exact h.sessions.erase _

theorem Accounted.accept (h : Accounted lost s) {sock session : ℕ} (hsock : sock ∉ s.sockets)
    (hsession : session ∉ s.sessions) :
    Accounted lost ⟨⟨sock, session⟩ :: s.registered, sock :: s.sockets, session :: s.sessions⟩ := by
  refine ⟨?_, ?_, h.sockets_nodup.cons hsock, h.sessions_nodup.cons hsession⟩
  · rw [List.map_cons, ← h.sockets]
  · exact (h.sessions.cons session).trans List.perm_middle.symm

theorem Accounted.lose (h : Accounted lost s) {session : ℕ} (hsession : session ∉ s.sessions) :
    Accounted (session :: lost) { s with sessions := session :: s.sessions } :=
  ⟨h.sockets, h.sessions.cons session, h.sockets_nodup, h.sessions_nodup.cons hsession⟩

/-- One step keeps the account; a request that fails at `accept` loses a session. -/
theorem accounted_step {e : Event} (h : Accounted lost s) (hstep : step s e = some s') :
    ∃ lost', Accounted lost' s' ∧ lost'.length = lost.length + if e.fails then 1 else 0 := by
  cases e with
  | died xprt =>
    rw [step] at hstep
    split at hstep
    · next hmem =>
      cases hstep
      exact ⟨lost, h.destroy hmem, rfl⟩
    · cases hstep
  | request session accepts handshake memory =>
    rw [step] at hstep
    split at hstep
    · cases hstep
    · next hfresh =>
      rw [not_or, not_exists] at hfresh
      rw [rendezvousRequest] at hstep
      split at hstep
      · cases hstep
      · next hfailed =>
        cases hstep
        exact ⟨session :: lost, h.lose hfresh.1, by simp [Event.fails, hfailed]⟩
      · next sock hsome =>
        have hfails : (Event.request session accepts handshake memory).fails = false := by
          simp [Event.fails, hsome]
        have hsock : sock ∉ s.sockets := fun hmem => hfresh.2 sock ⟨hmem, hsome⟩
        rw [hfails]
        split at hstep
        · cases hstep
          rw [List.erase_cons_head, List.erase_cons_head]
          exact ⟨lost, h, rfl⟩
        · split at hstep
          · cases hstep
          · cases hstep
            exact ⟨lost, h.accept hsock hfresh.1, rfl⟩

theorem accounted_run {es : List Event} (h : Accounted lost s) (hrun : run step s es = some s') :
    ∃ lost', Accounted lost' s' ∧ lost'.length = lost.length + es.countP Event.fails := by
  induction es generalizing lost s with
  | nil =>
    cases hrun
    exact ⟨lost, h, rfl⟩
  | cons e es ih =>
    obtain ⟨mid, hmid, hrest⟩ := Option.bind_eq_some_iff.mp hrun
    obtain ⟨lost', haccounted, hlen⟩ := accounted_step h hmid
    obtain ⟨lost'', hlast, hlen'⟩ := ih haccounted hrest
    refine ⟨lost'', hlast, ?_⟩
    rw [hlen', hlen, List.countP_cons]
    omega

/-- After any requests and deaths, the open sockets are those of the registered transporters, no two
of which share a socket or a session; and of the sessions the process holds, as many belong to no
transporter as requests have failed at `accept`. -/
theorem run_accounted {es : List Event} (hrun : run step Service.fresh es = some s) :
    s.sockets = s.registered.map Transporter.xpSock ∧ s.sockets.Nodup ∧
      (s.registered.map Transporter.xpP2).Nodup ∧
      (∀ xprt ∈ s.registered, xprt.xpP2 ∈ s.sessions) ∧
      s.sessions.length = s.registered.length + es.countP Event.fails := by
  have hfresh : Accounted [] Service.fresh := ⟨rfl, List.Perm.nil, List.nodup_nil, List.nodup_nil⟩
  obtain ⟨lost, haccounted, hlen⟩ := accounted_run hfresh hrun
  refine ⟨haccounted.sockets, haccounted.sockets_nodup, haccounted.registered_nodup, ?_, ?_⟩
  · intro xprt hmem
    exact haccounted.sessions.mem_iff.mpr (List.mem_append_right _ (List.mem_map_of_mem hmem))
  · rw [haccounted.sessions.length_eq, List.length_append, List.length_map, hlen, List.length_nil]
    omega

theorem run_accounted_two_connections :
    ([4] : List ℕ) = [Transporter.mk 4 12].map Transporter.xpSock ∧ ([4] : List ℕ).Nodup ∧
      ([Transporter.mk 4 12].map Transporter.xpP2).Nodup ∧
      (∀ xprt ∈ [Transporter.mk 4 12], xprt.xpP2 ∈ [12, 11]) ∧ [12, 11].length = [Transporter.mk 4 12].length +
        [Event.request 10 [.socket 3] true true, .request 11 [.failed] true true,
          .request 12 [.interrupted, .socket 4] true true, .died ⟨3, 10⟩].countP Event.fails :=
  @run_accounted ⟨[⟨4, 12⟩], [4], [12, 11]⟩ _ (by decide)

end WorkCode.Transporters
