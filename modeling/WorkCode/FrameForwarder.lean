import WorkCode.ByteMemory
import WorkCode.EventRuns
import Mathlib.Logic.Function.Basic

/-!
# The two-thread forwarder

`main` starts one thread for the client settings and one for the server settings. Each
captures the frames of one device that pass its filter and injects them on the other
device of its settings. What the filters accept is libpcap's, so it is a parameter here.

In the settings of `main` all four devices are `eth0`: whatever a thread injects passes
its own capture again.
-/

namespace WorkCode.FrameForwarder

open EventRuns

abbrev Frame := List Byte

/-- The fields of `struct iface_settings` that decide what is captured and where it is
injected. -/
structure IfaceSettings where
  clientDev : String
  serverDev : String
  filter : String
  isIfaceClient : ℤ
  deriving DecidableEq, Repr

inductive Thread | client | server
  deriving DecidableEq, Repr

def ifaces : Thread → IfaceSettings
  | .client => ⟨"eth0", "eth0", "src host 192.168.1.100", 1⟩
  | .server => ⟨"eth0", "eth0", "dst host 192.168.1.100", 0⟩

/-- The capture and the injection device that `packet_capture` chooses; it leaves the
program on any other value. -/
def packetCapture (iface : IfaceSettings) : Option (String × String) :=
  if iface.isIfaceClient = 1 then some (iface.clientDev, iface.serverDev)
  else if iface.isIfaceClient = 0 then some (iface.serverDev, iface.clientDev)
  else none

def snaplen : ℕ := 8192

structure Seen where
  arrival : ℕ
  injected : Bool
  bytes : Frame
  deriving DecidableEq, Repr

/-- `pcap_inject (inject_int_desc, packet_data, packet_header->len)`: the length is that of
the whole frame, and past the snapshot any bytes can follow. -/
def Injectable (captured injected : Frame) : Prop :=
  injected.length = captured.length ∧ injected.take snaplen = captured.take snaplen

instance (captured injected : Frame) : Decidable (Injectable captured injected) :=
  inferInstanceAs (Decidable (_ ∧ _))

/-- A thread: its capture buffer, and the frame its callback is working on. -/
structure Capture where
  opened : Bool
  buffer : List Seen
  hand : Option Seen
  deriving DecidableEq, Repr

/-- The program and what its threads have injected, with the frames they had captured. -/
structure State where
  arrivals : ℕ
  threads : Thread → Capture
  injections : List (Thread × Seen)

def init : State := ⟨0, fun _ => ⟨false, [], none⟩, []⟩

inductive Event
  | start (thread : Thread)
  | arrive (device : String) (frame : Frame)
  | capture (thread : Thread)
  | inject (thread : Thread) (frame : Frame)
  | fail (thread : Thread)

section Runs

variable (accepts : String → Frame → Bool)

def sees (thread : Thread) (device : String) (frame : Frame) : Bool :=
  (packetCapture (ifaces thread)).any (·.1 = device) && accepts (ifaces thread).filter frame

def State.deliver (s : State) (device : String) (x : Seen) : State :=
  { s with threads := fun thread =>
      let capture := s.threads thread
      if capture.opened && sees accepts thread device x.bytes
      then { capture with buffer := capture.buffer ++ [x] } else capture }

def State.setThread (s : State) (thread : Thread) (capture : Capture) : State :=
  { s with threads := Function.update s.threads thread capture }

/-- One step of the program or of the network, `none` when it is not possible. -/
def step (s : State) : Event → Option State
  | .start thread =>
    if (s.threads thread).opened then none
    else some (s.setThread thread ⟨true, [], none⟩)
  | .arrive device frame =>
    some ({ s with arrivals := s.arrivals + 1 }.deliver accepts device ⟨s.arrivals, false, frame⟩)
  | .capture thread => match s.threads thread with
    | ⟨opened, x :: buffer, none⟩ => some (s.setThread thread ⟨opened, buffer, some x⟩)
    | _ => none
  | .inject thread frame => match s.threads thread, packetCapture (ifaces thread) with
    | ⟨opened, buffer, some x⟩, some (_, device) =>
      if Injectable x.bytes frame then
        let s := s.setThread thread ⟨opened, buffer, none⟩
        let s := { s with injections := s.injections ++ [(thread, x)] }
        some (s.deliver accepts device ⟨x.arrival, true, frame⟩)
      else none
    | _, _ => none
  | .fail thread => match s.threads thread with
    | ⟨opened, buffer, some _⟩ => some (s.setThread thread ⟨opened, buffer, none⟩)
    | _ => none

/-- No injection is of a frame that was injected before, and no thread injects twice for
one arrival. -/
structure NotAmplified (s : State) : Prop where
  arrived : ∀ x ∈ s.injections, x.2.injected = false
  once : (s.injections.map fun x => (x.1, x.2.arrival)).Nodup

structure Quiet (s : State) : Prop where
  buffer : ∀ thread, (s.threads thread).buffer = []
  hand : ∀ thread, (s.threads thread).hand = none
  injections : s.injections = []

theorem Quiet.notAmplified {s : State} (h : Quiet s) : NotAmplified s := by
  constructor
  · simp [h.injections]
  · simp [h.injections]

theorem quiet_init : Quiet init := ⟨fun _ => rfl, fun _ => rfl, rfl⟩

theorem Quiet.setThread {s : State} (h : Quiet s) (thread : Thread) (opened : Bool) :
    Quiet (s.setThread thread ⟨opened, [], none⟩) := by
  constructor
  · intro t
    by_cases ht : t = thread
    · simp [State.setThread, ht]
    · simpa [State.setThread, Function.update_of_ne ht] using h.buffer t
  · intro t
    by_cases ht : t = thread
    · simp [State.setThread, ht]
    · simpa [State.setThread, Function.update_of_ne ht] using h.hand t
  · exact h.injections

theorem deliver_of_not_sees {s : State} {device : String} {x : Seen}
    (h : ∀ thread, sees accepts thread device x.bytes = false) : s.deliver accepts device x = s := by
  simp [State.deliver, h]

/-- Without captured frames, only an arrival that some capture sees can change that. -/
theorem Quiet.step {s s' : State} {e : Event} (hs : Quiet s) (h : step accepts s e = some s')
    (hsees : ∀ device frame, e = .arrive device frame → ∀ thread, sees accepts thread device frame = false) :
    Quiet s' := by
  cases e with
  | start thread =>
    simp only [FrameForwarder.step] at h
    split at h
    · cases h
    · cases h
      exact hs.setThread thread true
  | arrive device frame =>
    cases h
    rw [deliver_of_not_sees accepts (hsees device frame rfl)]
    exact ⟨hs.buffer, hs.hand, hs.injections⟩
  | capture thread =>
    simp only [FrameForwarder.step] at h
    split at h
    · next hthread =>
      have hbuffer := hs.buffer thread
      rw [hthread] at hbuffer
      cases hbuffer
    · cases h
  | inject thread frame =>
    simp only [FrameForwarder.step] at h
    split at h
    · next hthread _ =>
      have hhand := hs.hand thread
      rw [hthread] at hhand
      cases hhand
    · cases h
  | fail thread =>
    simp only [FrameForwarder.step] at h
    split at h
    · next hthread =>
      have hhand := hs.hand thread
      rw [hthread] at hhand
      cases hhand
    · cases h

theorem Quiet.run {s s' : State} {es : List Event} (hs : Quiet s) (h : run (FrameForwarder.step accepts) s es = some s')
    (hsees : ∀ device frame, .arrive device frame ∈ es →
      ∀ thread, sees accepts thread device frame = false) : Quiet s' := by
  have hunseen : ∀ e ∈ es, ∀ device frame, e = .arrive device frame →
      ∀ thread, sees accepts thread device frame = false := by
    rintro e he device frame rfl
    exact hsees device frame he
  exact invariant_run (fun s e s' hs he hstep => hs.step accepts hstep he) hs ((along_event_iff h).mpr hunseen) h

theorem packetCapture_ifaces (thread : Thread) :
    packetCapture (ifaces thread) = some ("eth0", "eth0") := by
  cases thread with
  | client => rfl
  | server => rfl

theorem sees_eth0 (thread : Thread) (frame : Frame) :
    sees accepts thread "eth0" frame = accepts (ifaces thread).filter frame := by
  simp [sees, packetCapture_ifaces]

def feedback (thread : Thread) (frame : Frame) : List Event :=
  [.start thread, .arrive "eth0" frame, .capture thread, .inject thread frame, .capture thread,
    .inject thread frame]

theorem run_feedback {thread : Thread} {frame : Frame}
    (h : accepts (ifaces thread).filter frame = true) :
    ∃ s, run (step accepts) init (feedback thread frame) = some s ∧
      s.injections = [(thread, ⟨0, false, frame⟩), (thread, ⟨0, true, frame⟩)] := by
  simp [feedback, run, step, init, State.setThread, State.deliver, sees_eth0, packetCapture_ifaces, h,
    Injectable]

/-- With the settings of `main`, no run amplifies if and only if no frame arrives on
`eth0` that one of the filters accepts. -/
theorem notAmplified_iff (arrivals : String → Frame → Prop) :
    (∀ es s, (∀ device frame, .arrive device frame ∈ es → arrivals device frame) →
      run (step accepts) init es = some s → NotAmplified s) ↔
    ∀ frame, arrivals "eth0" frame → ∀ thread, accepts (ifaces thread).filter frame = false := by
  constructor
  · intro h frame harrival thread
    by_contra haccepts
    rw [Bool.not_eq_false] at haccepts
    obtain ⟨s, hrun, hinjections⟩ := run_feedback accepts haccepts
    have hsafe := h (feedback thread frame) s (by simpa [feedback] using harrival) hrun
    have hagain := hsafe.arrived (thread, ⟨0, true, frame⟩) (by simp [hinjections])
    cases hagain
  · intro h es s harrivals hrun
    apply Quiet.notAmplified
    apply quiet_init.run accepts hrun
    intro device frame he thread
    by_cases hdevice : device = "eth0"
    · subst hdevice
      rw [sees_eth0]
      exact h frame (harrivals _ frame he) thread
    · simp [sees, packetCapture_ifaces, Ne.symm hdevice]

end Runs

/-- What the two filters of `main` accept among the IPv4 frames of an Ethernet device. -/
def acceptsIpv4 (filter : String) (frame : Frame) : Bool :=
  let host (offset : ℕ) := (frame.drop offset).take 4 = [192, 168, 1, 100]
  (frame.drop 12).take 2 = [8, 0] &&
    (filter = "src host 192.168.1.100" && host 26 || filter = "dst host 192.168.1.100" && host 30)

def clientFrame : Frame :=
  List.replicate 12 0 ++ [8, 0] ++ [0x45, 0, 0, 20, 0, 0, 0, 0, 64, 17, 0, 0] ++
    [192, 168, 1, 100] ++ [192, 168, 1, 1]

/-- The client thread captures and injects the frame it has just injected. -/
theorem run_feedback_amplified :
    ¬ ∀ es s, run (step acceptsIpv4) init es = some s → NotAmplified s := by
  intro h
  have haccepts : acceptsIpv4 (ifaces .client).filter clientFrame = true := by decide +kernel
  obtain ⟨s, hrun, hinjections⟩ := run_feedback acceptsIpv4 haccepts
  have hagain := (h _ s hrun).arrived (.client, ⟨0, true, clientFrame⟩) (by simp [hinjections])
  cases hagain

end WorkCode.FrameForwarder
